import RoscoM68k.Base.Endian
import RoscoM68k.Base.Fields
import RoscoM68k.Firmware.XansiRuns

namespace RoscoM68k

section Numbers

-- The value of a row of decimal digits.
def decimal (ds : List Nat) : Nat := ds.foldl (fun n d => 10 * n + d) 0

-- What the parser makes of a value and the next digit.
def accumulate (v d : Nat) : Nat :=
  let v := u16 (v * 10)
  if u16 (v + d) < v then 65535 else u16 (v + d)

-- The digit takes the number onto or past the last value before a multiple of 65536.
def Tops (r : Int) (d : Nat) : Prop := 10 * r / 65536 < (10 * r + d + 1) / 65536

instance (r : Int) (d : Nat) : Decidable (Tops r d) := inferInstanceAs (Decidable (_ < _))

-- The number as far as it has been read, with -1 for a fresh start whenever a digit tops it.
def restarted (ds : List Nat) : Int :=
  ds.foldl (fun r d => if Tops r d then -1 else 10 * r + d) 0

-- The value fits, or the last digit has just topped what was left of it.
def FieldKept (ds : List Nat) : Prop := decimal ds ≤ 65535 ∨ restarted ds = -1

variable {v d n : Nat} {r : Int} {ds : List Nat}

theorem accumulate_eq (hd : d ≤ 9) : accumulate v d =
    if 65535 ≤ v * 10 % 65536 + d then 65535 else v * 10 % 65536 + d := by
  unfold accumulate u16
  dsimp only
  split_ifs <;> omega

-- The value in the entry against the number read.
structure Tracks (v : Nat) (r : Int) : Prop where
  mod : (v : Int) = r % 65536
  top : v = 65535 ↔ r = -1

theorem Tracks.step (h : Tracks v r) (hd : d ≤ 9) :
    Tracks (accumulate v d) (if Tops r d then -1 else 10 * r + d) := by
  have hv := h.mod
  have hw : ((v * 10 % 65536 : Nat) : Int) = 10 * r % 65536 := by
    push_cast
    rw [hv]
    omega
  rw [accumulate_eq hd]
  by_cases ht : Tops r d
  · have hle : 65535 ≤ v * 10 % 65536 + d := by
      unfold Tops at ht
      omega
    rw [if_pos ht,if_pos hle]
    exact ⟨rfl,by simp⟩
  · have hlt : ¬ 65535 ≤ v * 10 % 65536 + d := by
      unfold Tops at ht
      omega
    rw [if_neg ht,if_neg hlt]
    constructor <;> omega

theorem tracks_foldl (hds : ∀ d ∈ ds, d ≤ 9) (h : Tracks v r) :
    Tracks (ds.foldl accumulate v)
      (ds.foldl (fun r d => if Tops r d then -1 else 10 * r + d) r) := by
  induction ds generalizing v r with
  | nil => exact h
  | cons d ds ih =>
    exact ih (fun d hd => hds d (List.mem_cons_of_mem _ hd)) (h.step (hds d List.mem_cons_self))

theorem le_decimal_foldl (n : Nat) (ds : List Nat) :
    n ≤ ds.foldl (fun n d => 10 * n + d) n := by
  induction ds generalizing n with
  | nil => exact le_rfl
  | cons d ds ih =>
    have := ih (10 * n + d)
    rw [List.foldl_cons]
    omega

theorem accumulate_foldl (hds : ∀ d ∈ ds, d ≤ 9)
    (h : ds.foldl (fun n d => 10 * n + d) n ≤ 65535) :
    ds.foldl accumulate n = ds.foldl (fun n d => 10 * n + d) n := by
  induction ds generalizing n with
  | nil => rfl
  | cons d ds ih =>
    rw [List.foldl_cons] at h ⊢
    have hle := le_decimal_foldl (10 * n + d) ds
    have hd := hds d List.mem_cons_self
    have hstep : accumulate n d = 10 * n + d := by
      rw [accumulate_eq hd]
      split <;> omega
    rw [hstep,ih (fun d hd => hds d (List.mem_cons_of_mem _ hd)) h]
    rfl

theorem accumulate_kept (hds : ∀ d ∈ ds, d ≤ 9) :
    ds.foldl accumulate 0 = min (decimal ds) 65535 ↔ FieldKept ds := by
  have ht : Tracks (ds.foldl accumulate 0) (restarted ds) :=
    tracks_foldl hds ⟨rfl,by decide⟩
  by_cases hfit : decimal ds ≤ 65535
  · have he : ds.foldl accumulate 0 = decimal ds := accumulate_foldl hds hfit
    rw [he,Nat.min_eq_left hfit]
    exact ⟨fun _ => .inl hfit,fun _ => rfl⟩
  · rw [Nat.min_eq_right (by omega),ht.top]
    exact ⟨.inr,fun h => h.resolve_left hfit⟩

end Numbers

section Bytes

-- What the parser's tests say about a digit, and about a byte that ends a sequence.
structure DigitByte (c : UInt8) : Prop where
  nonzero : c ≠ 0
  plain : c &&& 0x7f ≠ 0x1b ∧ c ≠ 0x18 ∧ c ≠ 0x1a
  shown : ¬ (c ≥ 0x80 ∨ c ≤ 0x20 ∨ c = 0x7f)
  row : c &&& 0xf0 = 0x30
  small : c - 0x30 ≤ 9
  value : (c - 0x30).toNat ≤ 9

theorem digit_byte {c : UInt8} (h : 0x30 ≤ c ∧ c ≤ 0x39) : DigitByte c := by
  have hall : ∀ c : UInt8, 0x30 ≤ c ∧ c ≤ 0x39 →
      (c ≠ 0 ∧ (c &&& 0x7f ≠ 0x1b ∧ c ≠ 0x18 ∧ c ≠ 0x1a) ∧
      ¬ (c ≥ 0x80 ∨ c ≤ 0x20 ∨ c = 0x7f) ∧ c &&& 0xf0 = 0x30 ∧ c - 0x30 ≤ 9 ∧
      (c - 0x30).toNat ≤ 9) := byte_all (by decide +kernel)
  obtain ⟨h1,h2,h3,h4,h5,h6⟩ := hall c h
  exact ⟨h1,h2,h3,h4,h5,h6⟩

structure FinalByte (c : UInt8) : Prop where
  nonzero : c ≠ 0
  plain : c &&& 0x7f ≠ 0x1b ∧ c ≠ 0x18 ∧ c ≠ 0x1a
  shown : ¬ (c ≥ 0x80 ∨ c ≤ 0x20 ∨ c = 0x7f)
  row : c &&& 0xf0 ≠ 0x20 ∧ c &&& 0xf0 ≠ 0x30 ∧ c &&& 0xf0 ≥ 0x40

theorem final_byte {c : UInt8} (h : 0x40 ≤ c ∧ c ≤ 0x7e) : FinalByte c := by
  have hall : ∀ c : UInt8, 0x40 ≤ c ∧ c ≤ 0x7e →
      (c ≠ 0 ∧ (c &&& 0x7f ≠ 0x1b ∧ c ≠ 0x18 ∧ c ≠ 0x1a) ∧
      ¬ (c ≥ 0x80 ∨ c ≤ 0x20 ∨ c = 0x7f) ∧
      (c &&& 0xf0 ≠ 0x20 ∧ c &&& 0xf0 ≠ 0x30 ∧ c &&& 0xf0 ≥ 0x40)) := byte_all (by decide +kernel)
  obtain ⟨h1,h2,h3,h4⟩ := hall c h
  exact ⟨h1,h2,h3,h4⟩

end Bytes

namespace Xansi

-- In the middle of a sequence without intermediate character.
def reading (td : Xansi) (numParms : Nat) (csiParms : List Nat) : Xansi :=
  { td with
    state := TSTATE_CSI
    intermediateChar := 0
    numParms := numParms
    csiParms := csiParms }

-- The two ways to write a CSI.
def csiIntro : List (List UInt8) := [[0x1b,0x5b],[0x9b]]

variable {R : Reconfig} {td td' : Xansi} {c : UInt8} {cs rest : List UInt8} {n : Nat}
  {A Z L : List Nat} {v : Nat}

theorem printLoop_cons (hc : c ≠ 0) (h : td.next R c = some td') :
    td.printLoop R (c :: cs) = td'.printLoop R cs := by
  rw [printLoop,if_neg hc,h]
  rfl

theorem printLoop_intro (hs : td.state = TSTATE_NORMAL) {intro : List UInt8}
    (hi : intro ∈ csiIntro) :
    td.printLoop R (intro ++ rest) = (td.reading 0 (List.replicate 16 0)).printLoop R rest := by
  have hno : ¬ (td.state ≥ TSTATE_ESC ∧ td.screen.flags.passthru = true) := by
    rw [hs]
    exact fun h => absurd h.1 (by decide)
  have hbegin : ∀ c : UInt8, c &&& 0x7f = 0x1b → td.next R c = some (td.beginCsiOrEsc c) := by
    intro c hc
    rw [next,if_pos hc,if_neg hno]
  simp only [csiIntro,List.mem_cons,List.not_mem_nil,or_false] at hi
  rcases hi with rfl | rfl
  · rw [List.cons_append,printLoop_cons (by decide) (hbegin 0x1b (by decide))]
    exact printLoop_cons (by decide) rfl
  · exact printLoop_cons (by decide) (hbegin 0x9b (by decide))

theorem next_reading (hc : c &&& 0x7f ≠ 0x1b ∧ c ≠ 0x18 ∧ c ≠ 0x1a) :
    (td.reading n L).next R c = (td.reading n L).parseCsi R c := by
  have hst : (td.reading n L).state = TSTATE_CSI := rfl
  rw [next,if_neg hc.1,byState,hst,if_neg (by decide),if_neg (by simp [hc.2.1,hc.2.2]),
    if_neg (by decide),if_pos rfl]

theorem next_digit (h : 0x30 ≤ c ∧ c ≤ 0x39) :
    (td.reading n L).next R c = (td.reading n L).digit (c - 0x30).toNat := by
  have hb := digit_byte h
  rw [next_reading hb.plain,parseCsi,if_neg hb.shown,hb.row,if_neg (by decide),if_pos rfl,
    if_pos hb.small]

theorem next_semicolon (hn : n < 15) :
    (td.reading n L).next R 0x3b = some (td.reading (n + 1) L) := by
  have hmod : (n + 1) % 256 = n + 1 := by omega
  have hlt : ¬ n + 1 ≥ MAX_CSI_PARMS := by
    unfold MAX_CSI_PARMS
    omega
  have hsemi : (td.reading n L).semicolon = td.reading (n + 1) L := by
    simp only [semicolon,reading,hmod,if_neg hlt]
  rw [next_reading (by decide),← hsemi]
  rfl

theorem next_final (h : 0x40 ≤ c ∧ c ≤ 0x7e) :
    (td.reading n L).next R c = (td.reading n L).processCsi R c := by
  have hb := final_byte h
  rw [next_reading hb.plain,parseCsi,if_neg hb.shown,if_neg hb.row.1,if_neg hb.row.2.1,
    if_pos hb.row.2.2]

-- A digit goes to the entry before the count, the first one of all to entry 0.
theorem digit_reading (hn : n = A.length + 1 ∨ n = 0 ∧ A = []) (d : Nat) :
    (td.reading n (A ++ v :: Z)).digit d =
      some (td.reading (A.length + 1) (A ++ accumulate v d :: Z)) := by
  have hnum : (if n = 0 then { td.reading n (A ++ v :: Z) with numParms := 1 }
      else td.reading n (A ++ v :: Z)) = td.reading (A.length + 1) (A ++ v :: Z) := by
    rcases hn with rfl | ⟨rfl,rfl⟩
    · exact if_neg (Nat.succ_ne_zero _)
    · rfl
  have hval : (td.reading (A.length + 1) (A ++ v :: Z)).parm A.length = some v := by
    rw [parm,reading,List.getElem?_append_right le_rfl,Nat.sub_self]
    rfl
  have hlt : A.length < (A ++ v :: Z).length := by
    simp only [List.length_append,List.length_cons]
    omega
  have hset : (td.reading (A.length + 1) (A ++ v :: Z)).setParm A.length (accumulate v d) =
      some (td.reading (A.length + 1) (A ++ accumulate v d :: Z)) := by
    have hl : (A ++ v :: Z).set A.length (accumulate v d) = A ++ accumulate v d :: Z := by
      rw [List.set_append_right _ _ le_rfl,Nat.sub_self]
      rfl
    rw [setParm,reading,if_pos hlt]
    simp only [hl]
    rfl
  have hcount : (td.reading n (A ++ v :: Z)).numParms = n := rfl
  rw [digit,hcount,hnum]
  change (td.reading (A.length + 1) (A ++ v :: Z)).parm A.length >>= _ = _
  rw [hval]
  exact hset

theorem next_accumulate (td : Xansi) (A Z : List Nat) (v : Nat)
    (hn : n = A.length + 1 ∨ n = 0 ∧ A = []) (hc : 0x30 ≤ c ∧ c ≤ 0x39) :
    (td.reading n (A ++ v :: Z)).next R c =
      some (td.reading (A.length + 1) (A ++ accumulate v (c - 0x30).toNat :: Z)) := by
  rw [next_digit hc]
  exact digit_reading hn _

-- The digits of a field, as numbers.
def digits (field : List UInt8) : List Nat := field.map (fun c => (c - 0x30).toNat)

def IsDigits (field : List UInt8) : Prop := ∀ c ∈ field, 0x30 ≤ c ∧ c ≤ 0x39

-- What the parser makes of a field.
def fieldValue (field : List UInt8) : Nat := (digits field).foldl accumulate 0

theorem printLoop_field {field : List UInt8} (hf : IsDigits field) :
    (td.reading (A.length + 1) (A ++ v :: Z)).printLoop R (field ++ rest) =
      (td.reading (A.length + 1) (A ++ (digits field).foldl accumulate v :: Z)).printLoop R
        rest := by
  induction field generalizing v with
  | nil => rfl
  | cons c cs ih =>
    have hc := hf c List.mem_cons_self
    rw [List.cons_append,
      printLoop_cons (digit_byte hc).nonzero (next_accumulate td A Z v (.inl rfl) hc),
      ih (fun c hc => hf c (List.mem_cons_of_mem _ hc))]
    rfl

-- The first digit of all counts the first field.
theorem printLoop_first {L : List Nat} (hc : 0x30 ≤ c ∧ c ≤ 0x39) :
    (td.reading 0 (v :: L)).printLoop R (c :: cs) =
      (td.reading 1 (v :: L)).printLoop R (c :: cs) := by
  have hne := (digit_byte hc).nonzero
  exact (printLoop_cons hne (next_accumulate td [] L v (.inr ⟨rfl,rfl⟩) hc)).trans
    (printLoop_cons hne (next_accumulate td [] L v (.inl rfl) hc)).symm

def zeros (k : Nat) : List Nat := List.replicate k 0

-- The fields from the one on that the count stands at.
theorem printLoop_fields (R : Reconfig) (td : Xansi) (A : List Nat) (rest : List UInt8)
    {fs : List (List UInt8)} (hne : fs ≠ [])
    (hf : ∀ f ∈ fs, IsDigits f) (hlen : A.length + fs.length ≤ 15) :
    (td.reading (A.length + 1) (A ++ zeros (16 - A.length))).printLoop R
        ([(0x3b : UInt8)].intercalate fs ++ rest) =
      (td.reading (A.length + fs.length)
        (A ++ fs.map fieldValue ++ zeros (16 - (A.length + fs.length)))).printLoop R rest := by
  induction fs generalizing A with
  | nil => exact absurd rfl hne
  | cons f fs ih =>
    rw [List.length_cons] at hlen
    have hz : zeros (16 - A.length) = 0 :: zeros (16 - (A.length + 1)) := by
      have he : 16 - A.length = 16 - (A.length + 1) + 1 := by omega
      rw [he]
      rfl
    cases fs with
    | nil =>
      rw [List.intercalate_singleton,hz,printLoop_field (hf f List.mem_cons_self)]
      simp [fieldValue]
    | cons g fs =>
      have hrest := ih (A ++ [fieldValue f]) (List.cons_ne_nil g fs)
        (fun f hf' => hf f (List.mem_cons_of_mem _ hf'))
        (by simp only [List.length_append,List.length_cons,List.length_nil] at hlen ⊢; omega)
      have hA : (A ++ [fieldValue f]).length = A.length + 1 := List.length_append
      rw [hA] at hrest
      rw [List.intercalate_cons_cons,List.append_assoc,List.append_assoc,hz,
        printLoop_field (hf f List.mem_cons_self),List.singleton_append,
        printLoop_cons (by decide) (next_semicolon (by rw [List.length_cons] at hlen; omega)),
        List.append_cons]
      refine hrest.trans ?_
      have hn : A.length + 1 + (g :: fs).length = A.length + (f :: g :: fs).length := by
        simp only [List.length_cons]
        omega
      rw [hn,List.append_assoc A,List.map_cons (l := g :: fs)]
      rfl

def parmFields (params : List UInt8) : List (List UInt8) := params.splitOn 0x3b

-- An empty field at the start is not counted.
def countedFields : List (List UInt8) → List (List UInt8)
  | [] :: fs => fs
  | fs => fs

def IsParms (params : List UInt8) : Prop := ∀ c ∈ params, (0x30 ≤ c ∧ c ≤ 0x39) ∨ c = 0x3b

theorem IsParms.fields {params : List UInt8} (h : IsParms params) :
    ∀ f ∈ parmFields params, IsDigits f := by
  intro f hf c hc
  obtain ⟨hm,hne⟩ := mem_splitOn hf hc
  exact (h c hm).resolve_right hne

-- The bytes up to the first digit or the first semicolon behind it count the first field.
theorem printLoop_counted (R : Reconfig) (rest : List UInt8) (hs : td.state = TSTATE_NORMAL)
    {intro params : List UInt8} (hi : intro ∈ csiIntro) (hp : IsParms params)
    {fs : List (List UInt8)} (hfs : fs = countedFields (parmFields params)) (hne : fs ≠ []) :
    td.printLoop R (intro ++ params ++ rest) =
      (td.reading 1 (zeros 16)).printLoop R ([(0x3b : UInt8)].intercalate fs ++ rest) := by
  have hf := hp.fields
  have hjoin : [(0x3b : UInt8)].intercalate (parmFields params) = params :=
    List.intercalate_splitOn _
  rw [List.append_assoc,printLoop_intro hs hi,← hjoin]
  have hsplit : parmFields params ≠ [] := List.splitOn_ne_nil _ _
  revert hfs hf hsplit
  generalize parmFields params = gs
  intro hfs hf hsplit
  match gs with
  | [] => exact absurd rfl hsplit
  | [] :: [] => exact absurd hfs hne
  | [] :: g :: gs =>
    rw [List.intercalate_cons_cons,List.nil_append,List.singleton_append,List.cons_append,
      printLoop_cons (by decide) (next_semicolon (by omega)),hfs]
    rfl
  | (c :: cs) :: gs =>
    have hc : 0x30 ≤ c ∧ c ≤ 0x39 := hf _ List.mem_cons_self c List.mem_cons_self
    have hhead : ∃ ds, [(0x3b : UInt8)].intercalate ((c :: cs) :: gs) = c :: ds := by
      cases gs with
      | nil => exact ⟨cs,List.intercalate_singleton⟩
      | cons g gs => exact ⟨_,List.intercalate_cons_cons⟩
    obtain ⟨ds,hds⟩ := hhead
    rw [hfs]
    unfold countedFields
    rw [hds]
    exact printLoop_first hc

theorem countedFields_digits {fs : List (List UInt8)} (h : ∀ f ∈ fs, IsDigits f) :
    ∀ f ∈ countedFields fs, IsDigits f := by
  intro f hf
  match fs with
  | [] => exact h f hf
  | [] :: fs => exact h f (List.mem_cons_of_mem _ hf)
  | (c :: cs) :: fs => exact h f hf

theorem countedFields_length (fs : List (List UInt8)) : (countedFields fs).length ≤ fs.length := by
  match fs with
  | [] => exact le_rfl
  | [] :: fs => exact Nat.le_succ _
  | (c :: cs) :: fs => exact le_rfl

theorem countedFields_nil {params : List UInt8} (h : [] = countedFields (parmFields params)) :
    params = [] := by
  have hjoin : [(0x3b : UInt8)].intercalate (parmFields params) = params :=
    List.intercalate_splitOn _
  have hsplit : parmFields params ≠ [] := List.splitOn_ne_nil _ _
  revert h hjoin hsplit
  generalize parmFields params = gs
  intro h hjoin hsplit
  match gs with
  | [] => exact absurd rfl hsplit
  | [] :: [] => exact hjoin.symm
  | [] :: g :: gs => exact absurd h.symm (List.cons_ne_nil g gs)
  | (c :: cs) :: gs => exact absurd h.symm (List.cons_ne_nil _ gs)

theorem printLoop_parms (R : Reconfig) (rest : List UInt8) (hs : td.state = TSTATE_NORMAL)
    {intro params : List UInt8} (hi : intro ∈ csiIntro) (hp : IsParms params)
    {fs : List (List UInt8)} (hfs : fs = countedFields (parmFields params))
    (hlen : fs.length ≤ 15) :
    td.printLoop R (intro ++ params ++ rest) =
      (td.reading fs.length (fs.map fieldValue ++ zeros (16 - fs.length))).printLoop R rest := by
  by_cases hne : fs = []
  · rw [hne] at hfs ⊢
    rw [countedFields_nil hfs,List.append_nil]
    exact printLoop_intro hs hi
  · have hf : ∀ f ∈ fs, IsDigits f := hfs ▸ countedFields_digits hp.fields
    have hA := printLoop_fields R td [] rest hne hf (by rwa [List.length_nil,Nat.zero_add])
    simp only [List.length_nil,Nat.zero_add,List.nil_append] at hA
    exact (printLoop_counted R rest hs hi hp hfs hne).trans hA

-- What the parameters stand for.
def parmValues (fs : List (List UInt8)) : List Nat :=
  fs.map (fun f => min (decimal (digits f)) 65535) ++ zeros (16 - fs.length)

-- The first field is not empty and every field is kept, or there is nothing but zeros.
def ParmsKept (fs : List (List UInt8)) : Prop :=
  fs.head? ≠ some [] ∧ (∀ f ∈ fs, FieldKept (digits f)) ∨ ∀ f ∈ fs, decimal (digits f) = 0

theorem digits_le {f : List UInt8} (hf : IsDigits f) : ∀ d ∈ digits f, d ≤ 9 := by
  intro d hd
  obtain ⟨c,hc,rfl⟩ := List.mem_map.mp hd
  exact (digit_byte (hf c hc)).value

theorem fieldValue_eq {f : List UInt8} (hf : IsDigits f) :
    fieldValue f = min (decimal (digits f)) 65535 ↔ FieldKept (digits f) :=
  accumulate_kept (digits_le hf)

theorem fieldValue_zero {f : List UInt8} (hf : IsDigits f) (h : decimal (digits f) = 0) :
    fieldValue f = 0 := by
  have hk := (fieldValue_eq hf).mpr (.inl (by omega))
  rw [hk,h]
  rfl

-- The entries one place ahead of the fields: all of them have to be zero.
theorem shifted_zero {fs : List (List UInt8)} (hf : ∀ f ∈ fs, IsDigits f) {a : Nat}
    (h : fs.map fieldValue ++ [0] = a :: fs.map (fun f => min (decimal (digits f)) 65535)) :
    a = 0 ∧ ∀ f ∈ fs, decimal (digits f) = 0 := by
  induction fs generalizing a with
  | nil =>
    obtain ⟨rfl,-⟩ := List.cons.inj h
    exact ⟨rfl,by simp⟩
  | cons f fs ih =>
    obtain ⟨ha,ht⟩ := List.cons.inj h
    obtain ⟨hmin,hall⟩ := ih (fun g hg => hf g (List.mem_cons_of_mem _ hg)) ht
    have hmin' : min (decimal (digits f)) 65535 = 0 := hmin
    have hz : decimal (digits f) = 0 := by omega
    exact ⟨ha.symm.trans (fieldValue_zero (hf f List.mem_cons_self) hz),
      List.forall_mem_cons.mpr ⟨hz,hall⟩⟩

theorem map_zero {fs : List (List UInt8)} {g : List UInt8 → Nat} (h : ∀ f ∈ fs, g f = 0) :
    fs.map g = zeros fs.length := by
  rw [zeros,List.map_congr_left h]
  exact List.map_const' ..

theorem entries_eq_iff {fs : List (List UInt8)} (hne : fs ≠ []) (hf : ∀ f ∈ fs, IsDigits f)
    (hlen : fs.length ≤ 15) :
    (countedFields fs).map fieldValue ++ zeros (16 - (countedFields fs).length) = parmValues fs ↔
      ParmsKept fs := by
  match fs with
  | [] => exact absurd rfl hne
  | [] :: gs =>
    rw [List.length_cons] at hlen
    have hgs : ∀ f ∈ gs, IsDigits f := fun f hf' => hf f (List.mem_cons_of_mem _ hf')
    have hz : zeros (16 - gs.length) = [0] ++ zeros (16 - (gs.length + 1)) := by
      have he : 16 - gs.length = 16 - (gs.length + 1) + 1 := by omega
      rw [he]
      rfl
    have hentries : gs.map fieldValue ++ zeros (16 - gs.length) = parmValues ([] :: gs) ↔
        gs.map fieldValue ++ [0] = 0 :: gs.map (fun f => min (decimal (digits f)) 65535) := by
      rw [hz,← List.append_assoc]
      exact List.append_left_inj _
    rw [countedFields,hentries]
    constructor
    · intro h
      exact .inr (List.forall_mem_cons.mpr ⟨rfl,(shifted_zero hgs h).2⟩)
    · rintro (⟨hhead,-⟩ | hall)
      · exact absurd rfl hhead
      · have hall' : ∀ f ∈ gs, decimal (digits f) = 0 := (List.forall_mem_cons.mp hall).2
        rw [map_zero (fun f hf' => fieldValue_zero (hgs f hf') (hall' f hf')),
          map_zero (fun f hf' => by rw [hall' f hf']; rfl)]
        exact List.replicate_succ'.symm
  | (c :: cs) :: gs =>
    have hmap : ((c :: cs) :: gs).map fieldValue ++ zeros (16 - ((c :: cs) :: gs).length) =
        parmValues ((c :: cs) :: gs) ↔ ∀ f ∈ (c :: cs) :: gs, FieldKept (digits f) := by
      rw [parmValues,List.append_left_inj,List.map_inj_left]
      exact forall₂_congr (fun f hf' => fieldValue_eq (hf f hf'))
    refine hmap.trans ⟨fun h => .inl ⟨by simp,h⟩,?_⟩
    rintro (⟨-,h⟩ | h)
    · exact h
    · exact fun f hf' => .inl (by rw [h f hf']; omega)

end Xansi

open Xansi

-- What reaches the final character of a sequence. Digits that take a value past 65535 do not
-- always leave it there, and an empty field at the start shifts those behind it.
theorem csi_parms_read {R : Reconfig} {td : Xansi} {intro params : List UInt8} {c : UInt8}
    (hs : td.state = TSTATE_NORMAL) (hi : intro ∈ csiIntro) (hp : IsParms params)
    (hlen : (parmFields params).length ≤ 15) (hc : 0x40 ≤ c ∧ c ≤ 0x7e) :
    ∃ td', td.printLoop R (intro ++ params) = some td' ∧
      td.printLoop R (intro ++ params ++ [c]) = td'.processCsi R c ∧
      (td'.csiParms = parmValues (parmFields params) ↔ ParmsKept (parmFields params)) := by
  obtain ⟨fs,hfs⟩ : ∃ fs, fs = countedFields (parmFields params) := ⟨_,rfl⟩
  have hcount : fs.length ≤ 15 := hfs ▸ (countedFields_length _).trans hlen
  have hloop := fun rest => printLoop_parms R rest hs hi hp hfs hcount
  refine ⟨td.reading fs.length (fs.map fieldValue ++ zeros (16 - fs.length)),?_,?_,?_⟩
  · have h := hloop []
    rwa [List.append_nil] at h
  · rw [hloop [c],printLoop,if_neg (final_byte hc).nonzero,next_final hc]
    exact Option.bind_fun_some _
  · rw [hfs]
    exact entries_eq_iff (List.splitOn_ne_nil _ _) hp.fields hlen

-- A terminal that has been cleared, with its parser at rest.
def Xansi.idle (s : Screen) : Xansi where
  screen := s
  state := TSTATE_NORMAL
  csiParms := List.replicate MAX_CSI_PARMS 0
  numParms := 0
  intermediateChar := 0
  sendIndex := -1
  sendBuffer := List.replicate MAX_QUERY_LEN 0
  verCode := (0x30,0x30,0x30)

-- CSI 12;3H.
theorem csi_parms_read_two : ∃ td',
    (Xansi.idle (xansiCleared plainXosera)).printLoop plainReconfig
        ([0x1b,0x5b] ++ [0x31,0x32,0x3b,0x33]) = some td' ∧
      td'.csiParms = [12,3,0,0,0,0,0,0,0,0,0,0,0,0,0,0] := by
  have hs : (Xansi.idle (xansiCleared plainXosera)).state = TSTATE_NORMAL := rfl
  have hp : IsParms [0x31,0x32,0x3b,0x33] := by
    simp [IsParms]
  obtain ⟨td',h1,-,h2⟩ := csi_parms_read (R := plainReconfig) (c := 0x48) hs
    (by decide : [0x1b,0x5b] ∈ csiIntro) hp (by decide) (by decide)
  refine ⟨td',h1,?_⟩
  have hkept : ParmsKept (parmFields [0x31,0x32,0x3b,0x33]) := by
    refine .inl ⟨by decide,fun f hf => .inl ?_⟩
    revert f
    decide
  rw [h2.mpr hkept]
  decide

-- CSI 99999 leaves 34463 in the first entry, and CSI ;5 has its 5 there.
theorem csi_parms_misread :
    (∃ td', (Xansi.idle (xansiCleared plainXosera)).printLoop plainReconfig
        ([0x1b,0x5b] ++ [0x39,0x39,0x39,0x39,0x39]) = some td' ∧
      td'.csiParms[0]? = some 34463 ∧
      td'.csiParms ≠ parmValues (parmFields [0x39,0x39,0x39,0x39,0x39])) ∧
    ∃ td', (Xansi.idle (xansiCleared plainXosera)).printLoop plainReconfig
        ([0x1b,0x5b] ++ [0x3b,0x35]) = some td' ∧
      td'.csiParms[0]? = some 5 ∧ td'.csiParms ≠ parmValues (parmFields [0x3b,0x35]) := by
  have hlong : ((Xansi.idle (xansiCleared plainXosera)).printLoop plainReconfig
      ([0x1b,0x5b] ++ [0x39,0x39,0x39,0x39,0x39])).map csiParms =
        some (34463 :: zeros 15) := by
    decide +kernel
  have hlead : ((Xansi.idle (xansiCleared plainXosera)).printLoop plainReconfig
      ([0x1b,0x5b] ++ [0x3b,0x35])).map csiParms = some (5 :: zeros 15) := by
    decide +kernel
  obtain ⟨td1,h1,hp1⟩ := Option.map_eq_some_iff.mp hlong
  obtain ⟨td2,h2,hp2⟩ := Option.map_eq_some_iff.mp hlead
  refine ⟨⟨td1,h1,?_,?_⟩,td2,h2,?_,?_⟩
  · rw [hp1]
    rfl
  · rw [hp1]
    decide
  · rw [hp2]
    rfl
  · rw [hp2]
    decide

end RoscoM68k
