import RoscoM68k.Firmware.KermitLoading
import RoscoM68k.Firmware.KermitSend

namespace RoscoM68k
namespace Kermit

def ATTRLEN : Nat := 48

-- Decimal digits from the last one on, up to as many as there is room for.
def numstringLoop : Nat → Nat → List UInt8 → Option (List UInt8)
  | 0, _, _ => none
  | i + 1, n, buf =>
    let buf := UInt8.ofNat (n % 10 + 0x30) :: buf
    if n / 10 = 0 then some buf else numstringLoop i (n / 10) buf

def numstring (n buflen : Nat) : Option (List UInt8) := numstringLoop (buflen - 2) n []

section Building

-- An attribute, with its tag and its length.
def tagged (tag : UInt8) (value : List UInt8) : List UInt8 :=
  [tag,tochar value.length] ++ value

def typeAttributes (binary : Bool) : List UInt8 :=
  if binary then tagged 0x22 [0x42,0x38]
  else tagged 0x22 [0x41,0x4d,0x4a] ++ tagged 0x2a [0x41]

def lengthAttribute (i : Nat) (filelength : Int) : List UInt8 :=
  if -1 < filelength then
    match numstring filelength.toNat 16 with
    | some p => if i + p.length < ATTRLEN - 3 then tagged 0x31 p else []
    | none => []
  else []

def dateAttribute (i : Nat) (datebuf : List UInt8) : List UInt8 :=
  if datebuf ≠ [] ∧ i + datebuf.length < ATTRLEN - 3 then tagged 0x23 datebuf else []

-- The data of an A packet.
def sattr (binary : Bool) (filelength : Int) (datebuf : List UInt8) : List UInt8 :=
  let xdata := typeAttributes binary
  let xdata := xdata ++ lengthAttribute xdata.length filelength
  let xdata := xdata ++ dateAttribute xdata.length datebuf
  xdata ++ tagged 0x40 []

end Building

section Numbers

variable {i n : Nat} {buf p : List UInt8}

theorem digit_value {d : Nat} (h : d < 10) :
    (0x30 ≤ UInt8.ofNat (d + 0x30) ∧ UInt8.ofNat (d + 0x30) ≤ 0x39) ∧
      ((UInt8.ofNat (d + 0x30)).toNat : Int) - 0x30 = d := by
  interval_cases d
  all_goals decide

-- What stringnum makes of a digit.
def addDigit (n : Int) (c : UInt8) : Int := long (n * 10 + (c.toNat - 0x30))

theorem long_eq {n : Int} (h : 0 ≤ n) (hlt : n < 2147483648) : long n = n := by
  rw [long]
  omega

theorem numstringLoop_some (h : n < 10 ^ (i + 1)) : ∃ p, numstringLoop (i + 1) n buf = some p := by
  induction i generalizing n buf with
  | zero =>
    rw [numstringLoop]
    exact ⟨_,if_pos (by omega)⟩
  | succ i ih =>
    rw [numstringLoop]
    split
    · exact ⟨_,rfl⟩
    · rw [pow_succ] at h
      exact ih (by omega)

-- The digits make the number again, as long as it fits a long.
theorem numstringLoop_value (h : numstringLoop i n buf = some p) : ∃ ds, p = ds ++ buf ∧ ds ≠ [] ∧
    ds.length ≤ i ∧ (∀ c ∈ ds, 0x30 ≤ c ∧ c ≤ 0x39) ∧ ∀ m : Int, 0 ≤ m →
      m * 10 ^ ds.length + n < 2147483648 → ds.foldl addDigit m = m * 10 ^ ds.length + n := by
  induction i generalizing n buf with
  | zero => simp [numstringLoop] at h
  | succ i ih =>
    obtain ⟨hd,hv⟩ := digit_value (Nat.mod_lt n (by norm_num : 0 < 10))
    have hstep (v : Int) (hpos : 0 ≤ v) (hlt : v * 10 + (n % 10 : Nat) < 2147483648) :
        addDigit v (UInt8.ofNat (n % 10 + 0x30)) = v * 10 + (n % 10 : Nat) := by
      rw [addDigit,hv]
      exact long_eq (by omega) hlt
    rw [numstringLoop] at h
    split at h
    · rename_i hz
      obtain rfl := Option.some.inj h
      refine ⟨[UInt8.ofNat (n % 10 + 0x30)],rfl,List.cons_ne_nil _ _,by simp,by simpa using hd,?_⟩
      intro m hm hlt
      have hn : n % 10 = n := by omega
      rw [List.length_singleton,pow_one] at hlt ⊢
      rw [List.foldl_cons,List.foldl_nil,hstep m hm (by omega),hn]
    · obtain ⟨ds,hp,hne,hlen,hall,hsum⟩ := ih h
      refine ⟨ds ++ [UInt8.ofNat (n % 10 + 0x30)],?_,by simp,?_,?_,?_⟩
      · rw [hp,List.append_assoc]
        rfl
      · rw [List.length_append,List.length_singleton]
        omega
      · intro c hc
        obtain hc | hc := List.mem_append.mp hc
        · exact hall c hc
        · rw [List.mem_singleton.mp hc]
          exact hd
      · intro m hm hlt
        have hpow : 0 ≤ m * 10 ^ ds.length := by positivity
        rw [List.length_append,List.length_singleton,pow_succ,← mul_assoc] at hlt ⊢
        rw [List.foldl_append,hsum m hm (by omega),List.foldl_cons,List.foldl_nil,
          hstep _ (by omega) (by omega)]
        omega

theorem numstring_eq (hn : n < 2147483648) : ∃ p, numstring n 16 = some p ∧ p ≠ [] ∧ p.length ≤ 14 ∧
    (∀ c ∈ p, 0x30 ≤ c ∧ c ≤ 0x39) ∧ stringnum p = n := by
  have hloop : ∃ p, numstringLoop 14 n [] = some p := numstringLoop_some (by omega)
  obtain ⟨p,hp⟩ := hloop
  obtain ⟨ds,hds,hne,hlen,hall,hsum⟩ := numstringLoop_value hp
  rw [List.append_nil] at hds
  subst hds
  refine ⟨p,hp,hne,hlen,hall,?_⟩
  have hskip : p.dropWhile (· = SP) = p := by
    obtain ⟨c,cs,rfl⟩ := List.exists_cons_of_ne_nil hne
    have hc := hall c List.mem_cons_self
    rw [List.dropWhile_cons_of_neg]
    simp only [decide_eq_true_eq]
    rintro rfl
    exact absurd hc (by decide)
  have htake : p.takeWhile (fun c => 0x30 ≤ c ∧ c ≤ 0x39) = p := by
    rw [List.takeWhile_eq_self_iff]
    intro c hc
    exact decide_eq_true (hall c hc)
  have hfold := hsum 0 le_rfl (by omega)
  rw [zero_mul,zero_add] at hfold
  rw [stringnum,hskip,htake]
  exact hfold

end Numbers

section Reading

variable {n : Nat} {value rest : List UInt8} {r : Attributes}

theorem field_eq {size : Nat} (h : value.length < size) :
    field size value.length (value ++ rest) = .ok (value,rest) := by
  rw [field,if_neg (by simp),if_pos (by omega),List.take_left,List.drop_left,
    List.take_of_length_le h.le]

theorem tagged_cons (tag : UInt8) (value rest : List UInt8) :
    tagged tag value ++ rest = tag :: tochar value.length :: (value ++ rest) := rfl

-- The type that a file is said to have.
def announced (value : List UInt8) (binary : Option Bool) : Option Bool :=
  match value with
  | 0x41 :: _ => some false
  | 0x42 :: _ => some true
  | _ => binary

-- Attributes that are read up to their end, whatever is behind them.
def Reads (s : List UInt8) (r r' : Attributes) : Prop :=
  ∃ c ≤ s.length, ∀ n rest, gattrLoop (n + c) (s ++ rest) r = gattrLoop n rest r'

theorem Reads.nil (r : Attributes) : Reads [] r r := ⟨0,le_rfl,fun _ _ => rfl⟩

theorem Reads.append {s t : List UInt8} {r₁ r₂ r₃ : Attributes} (h : Reads s r₁ r₂)
    (h' : Reads t r₂ r₃) : Reads (s ++ t) r₁ r₃ := by
  obtain ⟨c,hc,hs⟩ := h
  obtain ⟨c',hc',ht⟩ := h'
  refine ⟨c' + c,?_,fun n rest => ?_⟩
  · rw [List.length_append]
    omega
  · rw [List.append_assoc,← Nat.add_assoc,hs,ht]

-- A NUL ends them.
theorem Reads.all {s : List UInt8} {r r' : Attributes} (h : Reads s r r') (tail : List UInt8) :
    gattrLoop (s ++ 0 :: tail).length (s ++ 0 :: tail) r = .ok r' := by
  obtain ⟨c,hc,hs⟩ := h
  obtain ⟨m,hm⟩ := Nat.exists_eq_add_of_le hc
  have hfuel : (s ++ 0 :: tail).length = m + tail.length + 1 + c := by
    rw [List.length_append,List.length_cons]
    omega
  rw [hfuel,hs,gattrLoop,takeByte,ok_bind]
  rfl

theorem reads_tagged (tag : UInt8) (value : List UInt8) (hlen : value.length < 20)
    (htag : tag ≠ 0) (r : Attributes) :
    Reads (tagged tag value) r
      (if tag = 0x21 then { r with fsizek := stringnum (untilNul value) }
      else if tag = 0x22 then { r with binary := announced value r.binary }
      else if tag = 0x23 then { r with filedate := untilNul value }
      else if tag = 0x31 then { r with fsize := stringnum (untilNul value) }
      else r) := by
  refine ⟨1,Nat.succ_pos _,fun n rest => ?_⟩
  have hx : xunchar (tochar value.length) = value.length := xunchar_tochar (by omega)
  have hsize : field SIZEBUFL value.length (value ++ rest) = .ok (value,rest) :=
    field_eq (lt_trans hlen (by decide))
  have hdate : field DATE_MAX value.length (value ++ rest) = .ok (value,rest) := field_eq hlen
  rw [tagged_cons,gattrLoop,takeByte,ok_bind]
  dsimp only
  rw [if_neg htag,takeByte,ok_bind]
  dsimp only
  rw [hx,hsize,hdate]
  split
  · rfl
  · split
    · rfl
    · split
      · rfl
      · split
        · rfl
        · rw [if_neg (by simp),List.drop_left]

theorem digits_printed (h : ∀ c ∈ value, 0x30 ≤ c ∧ c ≤ 0x39) : 0 ∉ value :=
  fun hz => absurd (h 0 hz) (by decide)

theorem reads_type (binary : Bool) (r : Attributes) :
    Reads (typeAttributes binary) r { r with binary := some binary } := by
  cases binary with
  | false =>
    have htype := reads_tagged 0x22 [0x41,0x4d,0x4a] (by norm_num) (by decide) r
    exact htype.append (reads_tagged 0x2a [0x41] (by norm_num) (by decide) _)
  | true => exact reads_tagged 0x22 [0x42,0x38] (by norm_num) (by decide) r

theorem reads_length {filelength : Int} (hlt : filelength < 2147483648) {i : Nat} (hi : i ≤ 8)
    (r : Attributes) : Reads (lengthAttribute i filelength) r
      { r with fsize := if -1 < filelength then filelength else r.fsize } := by
  rw [lengthAttribute]
  split
  · obtain ⟨p,hp,-,hlen,hall,hval⟩ := numstring_eq (n := filelength.toNat) (by omega)
    have hmax : ATTRLEN = 48 := rfl
    have hread := reads_tagged 0x31 p (by omega) (by decide) r
    rw [untilNul_eq (digits_printed hall),hval,Int.toNat_of_nonneg (by omega)] at hread
    rw [hp]
    dsimp only
    rw [if_pos (by omega)]
    exact hread
  · exact .nil r

theorem reads_date {datebuf : List UInt8} (hlen : datebuf.length < DATE_MAX) (hz : 0 ∉ datebuf)
    {i : Nat} (hi : i ≤ 24) (r : Attributes) : Reads (dateAttribute i datebuf) r
      { r with filedate := if datebuf = [] then r.filedate else datebuf } := by
  have hmax : ATTRLEN = 48 := rfl
  have hdmax : DATE_MAX = 20 := rfl
  rw [dateAttribute]
  by_cases hd : datebuf = []
  · rw [if_neg (fun h => h.1 hd),if_pos hd]
    exact .nil r
  · have hread := reads_tagged 0x23 datebuf (by omega) (by decide) r
    rw [untilNul_eq hz] at hread
    rw [if_pos ⟨hd,by omega⟩,if_neg hd]
    exact hread

theorem typeAttributes_length (binary : Bool) : (typeAttributes binary).length ≤ 8 := by
  cases binary with
  | false => exact le_rfl
  | true => decide

theorem lengthAttribute_length {filelength : Int} (hlt : filelength < 2147483648) (i : Nat) :
    (lengthAttribute i filelength).length ≤ 16 := by
  rw [lengthAttribute]
  split
  · obtain ⟨p,hp,-,hlen,-⟩ := numstring_eq (n := filelength.toNat) (by omega)
    rw [hp]
    dsimp only
    split
    · rw [tagged,List.length_append]
      simp only [List.length_cons,List.length_nil]
      omega
    · exact Nat.zero_le _
  · exact Nat.zero_le _

-- What the attributes of a file say, with what has been known of it before.
def Attributes.told (r : Attributes) (binary : Bool) (filelength : Int) (datebuf : List UInt8) :
    Attributes where
  binary := some binary
  fsize := if -1 < filelength then filelength else r.fsize
  fsizek := r.fsizek
  filedate := if datebuf = [] then r.filedate else datebuf

theorem reads_sattr {filelength : Int} {datebuf : List UInt8} (hlt : filelength < 2147483648)
    (hdate : datebuf.length < DATE_MAX) (hz : 0 ∉ datebuf) (binary : Bool) (r : Attributes) :
    Reads (sattr binary filelength datebuf) r (r.told binary filelength datebuf) := by
  have htype := typeAttributes_length binary
  have hlength := lengthAttribute_length hlt (typeAttributes binary).length
  have hfront : (typeAttributes binary ++
      lengthAttribute (typeAttributes binary).length filelength).length ≤ 24 := by
    rw [List.length_append]
    omega
  have hend := reads_tagged 0x40 [] (by norm_num) (by decide)
    (r.told binary filelength datebuf)
  exact (((reads_type binary r).append (reads_length hlt htype _)).append
    (reads_date hdate hz hfront _)).append hend

-- What is said about a file is taken over as it is.
theorem gattr_sattr (k : KData) (binary : Bool) (filelength : Int) (datebuf : List UInt8) (p : Nat)
    (tail : List UInt8) (hlt : filelength < 2147483648) (hdate : datebuf.length < DATE_MAX)
    (hz : 0 ∉ datebuf) (hbuf : k.ipktbuf.drop p = sattr binary filelength datebuf ++ 0 :: tail) :
    k.gattr p = .ok { k with
      binary := binary
      filedate := if datebuf = [] then k.filedate else datebuf
      filesize := if -1 < filelength then filelength else k.filesize } := by
  have hread := (reads_sattr hlt hdate hz binary ⟨none,-1,-1,k.filedate⟩).all tail
  rw [KData.gattr,hbuf]
  rw [hread,ok_bind]
  dsimp only [Attributes.told]
  by_cases h : -1 < filelength
  · simp only [if_pos h]
    rfl
  · simp only [if_neg h]
    rfl

theorem gattr_sattr_seven : ∃ k',
    (KData.init (sattr true 7 [0x32,0x30] ++ [0]) []).gattr 0 = .ok k' ∧
    k'.filedate = [0x32,0x30] ∧ k'.filesize = 7 :=
  ⟨_,gattr_sattr (KData.init (sattr true 7 [0x32,0x30] ++ [0]) []) true 7 [0x32,0x30] 0 []
    (by decide) (by decide) (by decide) rfl,rfl,rfl⟩

theorem sattr_readable {filelength : Int} {datebuf : List UInt8} (hlt : filelength < 2147483648)
    (hdate : datebuf.length < DATE_MAX) (hz : 0 ∉ datebuf) (binary : Bool) :
    KData.Readable (sattr binary filelength datebuf) :=
  fun tail r => ⟨_,(reads_sattr hlt hdate hz binary r).all tail⟩

end Reading
end Kermit
end RoscoM68k
