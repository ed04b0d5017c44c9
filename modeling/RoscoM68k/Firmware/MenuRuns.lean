import RoscoM68k.Base.Fields
import RoscoM68k.Base.Overlay
import RoscoM68k.Firmware.Menu

namespace RoscoM68k
open Function

structure MenuItem where
  text : List UInt8
  data : List UInt8
  type : MenuItemType

def exitText : List UInt8 := ['e','x','i','t'].map fun c => UInt8.ofNat c.toNat
def romText : List UInt8 := ['r','o','m','/'].map fun c => UInt8.ofNat c.toNat

-- Text and data of a line: around its first colon, when no NUL is in front of that.
def lineFields : List UInt8 → Option (List UInt8 × List UInt8)
  | [] => none
  | c :: cs =>
    if c = ':'.toUInt8 then some ([],cs)
    else if c = 0 then none
    else (lineFields cs).map fun f => (c :: f.1,f.2)

-- The item of a line, if it has one.
def lineItem (l : List UInt8) : Option MenuItem :=
  if MAX_LINE_LENGTH < l.length then none
  else match lineFields l with
    | none => none
    | some (text,data) =>
      if text.length = 0 ∨ data.length = 0 ∨ MAX_TEXT_LENGTH < text.length ∨
          MAX_DATA_LENGTH + 4 < data.length then none
      else if exitText.isPrefixOf data then some ⟨text,[],.exit⟩
      else if romText.isPrefixOf data then some ⟨text,data.drop 4,.romfs⟩
      else none

theorem lineFields_split {l text data : List UInt8} (h : lineFields l = some (text,data)) :
    l = text ++ ':'.toUInt8 :: data := by
  induction l generalizing text with
  | nil => exact absurd h nofun
  | cons c cs ih =>
    rw [lineFields] at h
    split_ifs at h with hc hz
    · obtain ⟨rfl,rfl⟩ := Prod.mk.inj (Option.some.inj h)
      rw [hc]
      rfl
    · obtain ⟨⟨t,d⟩,hf,he⟩ := Option.map_eq_some_iff.mp h
      obtain ⟨rfl,rfl⟩ := Prod.mk.inj he
      rw [ih hf]
      rfl

-- What an access needs: the line buffer has `size` bytes, and holds what has been written.
def MenuAccess.Ok (size len : Nat) (max : Int) (log : List MenuAccess) : MenuAccess → Prop
  | .readInput i => i < len
  | .readLine i => i < size ∧ .writeLine i ∈ log
  | .readLiteral n i => i < n
  | .writeLine i => i < size
  | .writeText item i => (item : Int) < max ∧ i < MAX_TEXT_LENGTH + 1
  | .writeData item i => (item : Int) < max ∧ i < MAX_DATA_LENGTH + 1
  | .writeType item => (item : Int) < max

namespace MenuParser

section Logs

variable {size len : Nat} {max : Int} {l l' l'' : List MenuAccess} {a : MenuAccess}

-- Each access that is added is proper after those before it.
def Grows (size len : Nat) (max : Int) (l l' : List MenuAccess) : Prop :=
  ∃ new, l' = l ++ new ∧ ∀ pre a post, new = pre ++ a :: post → a.Ok size len max (l ++ pre)

theorem ok_mono (h : a.Ok size len max l) (hl : l ⊆ l') : a.Ok size len max l' := by
  cases a with
  | readLine i => exact ⟨h.1,hl h.2⟩
  | _ => exact h

theorem Grows.refl (l : List MenuAccess) : Grows size len max l l :=
  ⟨[],(List.append_nil l).symm,fun pre a post h => by simp at h⟩

theorem Grows.subset (h : Grows size len max l l') : l ⊆ l' := by
  obtain ⟨new,rfl,-⟩ := h
  exact List.subset_append_left l new

theorem Grows.trans (h : Grows size len max l l') (h' : Grows size len max l' l'') :
    Grows size len max l l'' := by
  obtain ⟨new,rfl,hnew⟩ := h
  obtain ⟨new',rfl,hnew'⟩ := h'
  refine ⟨new ++ new',List.append_assoc _ _ _,fun pre a post he => ?_⟩
  obtain ⟨as,hpre,hrest⟩ | ⟨bs,hnew'',hrest⟩ := List.append_eq_append_iff.mp he
  · rw [hpre,← List.append_assoc]
    exact hnew' as a post hrest
  · cases bs with
    | nil =>
      rw [List.append_nil] at hnew''
      have hfirst := hnew' [] a post hrest.symm
      rwa [hnew'',List.append_nil] at hfirst
    | cons b bs =>
      obtain ⟨rfl,hrest⟩ := List.cons.inj hrest
      exact hnew pre a bs hnew''

theorem Grows.one (h : a.Ok size len max l) : Grows size len max l (l ++ [a]) := by
  refine ⟨[a],rfl,fun pre b post he => ?_⟩
  cases pre with
  | nil =>
    obtain ⟨rfl,-⟩ := List.cons.inj he
    rwa [List.append_nil]
  | cons p pre => simp at he

theorem Grows.note (h : Grows size len max l l') (ha : a.Ok size len max l) :
    Grows size len max l (l' ++ [a]) :=
  h.trans (Grows.one (ok_mono ha h.subset))

-- The accesses of a copy.
def copyLog (rd wr : Nat → MenuAccess) : Nat → Nat → Nat → List MenuAccess
  | 0, _, _ => []
  | n + 1, dst, src => rd src :: wr dst :: copyLog rd wr n (dst + 1) (src + 1)

theorem grows_copy {rd wr : Nat → MenuAccess} {n dst src : Nat}
    (hrd : ∀ i, src ≤ i → i < src + n → (rd i).Ok size len max l)
    (hwr : ∀ i, dst ≤ i → i < dst + n → (wr i).Ok size len max l) :
    Grows size len max l (l ++ copyLog rd wr n dst src) := by
  induction n generalizing dst src l with
  | zero =>
    rw [copyLog,List.append_nil]
    exact Grows.refl l
  | succ n ih =>
    have hone : Grows size len max l (l ++ [rd src] ++ [wr dst]) :=
      (Grows.one (hrd src (Nat.le_refl src) (by omega))).note
        (hwr dst (Nat.le_refl dst) (by omega))
    have hrest : Grows size len max (l ++ [rd src] ++ [wr dst])
        (l ++ [rd src] ++ [wr dst] ++ copyLog rd wr n (dst + 1) (src + 1)) :=
      ih (fun i hi hi' => ok_mono (hrd i (by omega) (by omega)) hone.subset)
        (fun i hi hi' => ok_mono (hwr i (by omega) (by omega)) hone.subset)
    have hlog : l ++ copyLog rd wr (n + 1) dst src =
        l ++ [rd src] ++ [wr dst] ++ copyLog rd wr n (dst + 1) (src + 1) := by
      rw [copyLog,List.append_assoc,List.append_assoc]
      rfl
    rw [hlog]
    exact hone.trans hrest

theorem mem_copyLog (rd wr : Nat → MenuAccess) (src : Nat) {n dst i : Nat} (hi : dst ≤ i)
    (hi' : i < dst + n) : wr i ∈ copyLog rd wr n dst src := by
  induction n generalizing dst src with
  | zero => omega
  | succ n ih =>
    rw [copyLog]
    obtain rfl | hlt := Nat.eq_or_lt_of_le hi
    · exact List.mem_cons_of_mem _ List.mem_cons_self
    · exact List.mem_cons_of_mem _ (List.mem_cons_of_mem _ (ih (src + 1) hlt (by omega)))

end Logs

section Copies

variable (s : MenuParser) (n dst src : Nat)

theorem copyLine_eq (input : Nat → UInt8) : memcpy (loadInput input) storeLine n s dst src =
    { s with
      line := overlay s.line dst (slice input src n)
      log := s.log ++ copyLog .readInput .writeLine n dst src } := by
  induction n generalizing s dst src with
  | zero => simp [memcpy,slice,copyLog]
  | succ n ih =>
    simp only [memcpy,loadInput,ih,slice,← overlay_cons,copyLog]
    simp [storeLine,note]

theorem copyText_eq (item : Nat) : memcpy loadLine (storeText item) n s dst src =
    { s with
      text := update s.text item (overlay (s.text item) dst (slice s.line src n))
      log := s.log ++ copyLog .readLine (.writeText item) n dst src } := by
  induction n generalizing s dst src with
  | zero => simp [memcpy,slice,copyLog]
  | succ n ih =>
    simp only [memcpy,loadLine,ih,slice,← overlay_cons,copyLog]
    simp [storeText,note]

theorem copyData_eq (item : Nat) : memcpy loadLine (storeData item) n s dst src =
    { s with
      data := update s.data item (overlay (s.data item) dst (slice s.line src n))
      log := s.log ++ copyLog .readLine (.writeData item) n dst src } := by
  induction n generalizing s dst src with
  | zero => simp [memcpy,slice,copyLog]
  | succ n ih =>
    simp only [memcpy,loadLine,ih,slice,← overlay_cons,copyLog]
    simp [storeData,note]

-- A copied text with its NUL.
theorem slice_terminated (m : Nat → UInt8) (bs : List UInt8) :
    slice (update (overlay m 0 bs) bs.length 0) 0 (bs.length + 1) = bs ++ [0] := by
  rw [slice_succ,slice_update_above (by omega),slice_overlay_self,Nat.zero_add,update_self]

end Copies

section Lines

variable {size len fuel : Nat} {max : Int} {s : MenuParser} {l : List UInt8} {count : Nat}

-- The line buffer holds a line and its NUL.
structure Loaded (size : Nat) (s : MenuParser) (l : List UInt8) : Prop where
  text : slice s.line 0 (l.length + 1) = l ++ [0]
  fits : l.length < size
  written : ∀ i ≤ l.length, .writeLine i ∈ s.log

theorem Loaded.read (h : Loaded size s l) {i : Nat} (hi : i ≤ l.length) :
    (MenuAccess.readLine i).Ok size len max s.log :=
  ⟨Nat.lt_of_le_of_lt hi h.fits,h.written i hi⟩

theorem strchr_spec {i : Nat} (h : slice s.line i (l.length + 1) = l ++ [0])
    (hok : ∀ j, i ≤ j → j ≤ i + l.length → (MenuAccess.readLine j).Ok size len max s.log)
    (hf : l.length < fuel) : ∃ log, Grows size len max s.log log ∧
      strchr ':'.toUInt8 fuel s i =
        some ((lineFields l).map fun f => i + f.1.length,{ s with log := log }) := by
  induction l generalizing s i fuel with
  | nil =>
    obtain ⟨n,rfl⟩ : ∃ n, fuel = n + 1 := ⟨fuel - 1,by simp at hf; omega⟩
    obtain ⟨hb,-⟩ := List.cons.inj h
    refine ⟨_,Grows.one (hok i (Nat.le_refl i) (by simp)),?_⟩
    simp only [strchr,loadLine,hb]
    rfl
  | cons c cs ih =>
    rw [List.length_cons] at hf
    obtain ⟨n,rfl⟩ : ∃ n, fuel = n + 1 := ⟨fuel - 1,by omega⟩
    obtain ⟨hb,hrest⟩ := List.cons.inj h
    have hone : Grows size len max s.log (s.log ++ [.readLine i]) :=
      Grows.one (hok i (Nat.le_refl i) (by omega))
    simp only [strchr,loadLine,hb,lineFields]
    by_cases hc : c = ':'.toUInt8
    · rw [if_pos hc,if_pos hc]
      exact ⟨_,hone,rfl⟩
    by_cases hz : c = 0
    · rw [if_neg hc,if_pos hz,if_neg hc,if_pos hz]
      exact ⟨_,hone,rfl⟩
    · rw [if_neg hc,if_neg hz,if_neg hc,if_neg hz]
      obtain ⟨log,hlog,hrun⟩ := ih (s := s.note (.readLine i)) (i := i + 1) hrest
        (fun j hj hj' => ok_mono (hok j (by omega) (by rw [List.length_cons]; omega)) hone.subset)
        (by omega : cs.length < n)
      refine ⟨log,hone.trans hlog,?_⟩
      rw [hrun,Option.map_map]
      congr 3
      funext f
      simp only [Function.comp_apply,List.length_cons]
      omega

theorem strncmp_spec {lit p d : List UInt8} {i k : Nat}
    (h : slice s.line i (d.length + 1) = d ++ [0]) (hlit : lit.drop k = p ++ [0])
    (hp : ∀ c ∈ p, c ≠ 0)
    (hok : ∀ j, i ≤ j → j ≤ i + d.length → (MenuAccess.readLine j).Ok size len max s.log) :
    ∃ log, Grows size len max s.log log ∧
      strncmp lit p.length s i k = (p.isPrefixOf d,{ s with log := log }) := by
  induction p generalizing s d i k with
  | nil => exact ⟨s.log,Grows.refl s.log,by rw [List.isPrefixOf_nil_left]; rfl⟩
  | cons c cs ih =>
    have hk : lit[k]? = some c := by
      have hget := congrArg (·[0]?) hlit
      simpa [List.getElem?_drop] using hget
    have hlt : k < lit.length := (List.getElem?_eq_some_iff.mp hk).1
    have hgetD : lit.getD k 0 = c := by
      rw [List.getD_eq_getElem?_getD,hk]
      rfl
    have hc : c ≠ 0 := hp c List.mem_cons_self
    have hone : Grows size len max s.log (s.log ++ [.readLine i] ++ [.readLiteral lit.length k]) :=
      (Grows.one (hok i (Nat.le_refl i) (by omega))).note hlt
    cases d with
    | nil =>
      obtain ⟨hb,-⟩ := List.cons.inj h
      refine ⟨_,hone,?_⟩
      simp only [strncmp,loadLine,note,List.length_cons,hb,hgetD]
      rw [if_pos (Ne.symm hc)]
      rfl
    | cons b ds =>
      obtain ⟨hb,hrest⟩ := List.cons.inj h
      simp only [strncmp,loadLine,List.length_cons,hb,hgetD]
      by_cases hbc : b = c
      · have hcb : (c == b) = true := beq_iff_eq.mpr hbc.symm
        have hdrop : lit.drop (k + 1) = cs ++ [0] := by
          rw [← List.drop_drop,hlit]
          rfl
        obtain ⟨log,hlog,hrun⟩ := ih (s := (s.note (.readLine i)).note (.readLiteral lit.length k))
          (i := i + 1) (k := k + 1) hrest hdrop (fun e he => hp e (List.mem_cons_of_mem _ he))
          (fun j hj hj' => ok_mono (hok j (by omega) (by rw [List.length_cons]; omega)) hone.subset)
        refine ⟨log,hone.trans hlog,?_⟩
        rw [if_neg (not_not.mpr hbc),if_neg (by rw [hbc]; exact hc),hrun,List.isPrefixOf,hcb,
          Bool.true_and]
        rfl
      · have hcb : (c == b) = false := beq_eq_false_iff_ne.mpr (Ne.symm hbc)
        refine ⟨_,hone,?_⟩
        rw [if_pos hbc,List.isPrefixOf,hcb,Bool.false_and]
        rfl

-- An item with its NULs.
structure Stored (s : MenuParser) (i : Nat) (it : MenuItem) : Prop where
  text : slice (s.text i) 0 (it.text.length + 1) = it.text ++ [0]
  data : slice (s.data i) 0 (it.data.length + 1) = it.data ++ [0]
  type : s.type i = it.type

-- The other items stay as they are.
def Keeps (s s' : MenuParser) (count : Nat) : Prop :=
  ∀ i, i ≠ count → s'.text i = s.text i ∧ s'.data i = s.data i ∧ s'.type i = s.type i

theorem Keeps.refl (s : MenuParser) (count : Nat) : Keeps s s count := fun _ _ => ⟨rfl,rfl,rfl⟩

theorem Keeps.stored {s' : MenuParser} (h : Keeps s s' count) {i : Nat} (hi : i ≠ count)
    {it : MenuItem} (hs : Stored s i it) : Stored s' i it := by
  obtain ⟨ht,hd,hy⟩ := h i hi
  exact ⟨by rw [ht]; exact hs.text,by rw [hd]; exact hs.data,by rw [hy]; exact hs.type⟩

-- What one line comes to: its item, if it has one, goes to the next place.
structure Done (size len : Nat) (max : Int) (s s' : MenuParser) (count count' : Nat)
    (o : Option MenuItem) : Prop where
  grows : Grows size len max s.log s'.log
  next : count' = count + o.toList.length
  item : ∀ it, o = some it → Stored s' count it
  keeps : Keeps s s' count

theorem Done.skip {s' : MenuParser} (h : Grows size len max s.log s'.log) (hk : Keeps s s' count) :
    Done size len max s s' count count none := ⟨h,rfl,nofun,hk⟩

-- The text of an item as the parser leaves it.
def withText (s : MenuParser) (count : Nat) (text : List UInt8) (log : List MenuAccess) :
    MenuParser :=
  { s with
    text := update s.text count (update (overlay (s.text count) 0 text) text.length 0)
    log := log }

theorem keeps_withText (s : MenuParser) (count : Nat) (text : List UInt8)
    (log : List MenuAccess) : Keeps s (s.withText count text log) count := fun _ hi =>
  ⟨update_of_ne hi _ _,rfl,rfl⟩

theorem storeText_copied (len : Nat) (h : Loaded size s l) {text rest : List UInt8}
    (hl : l = text ++ rest) (hlen : text.length ≤ MAX_TEXT_LENGTH) (hmax : (count : Int) < max) :
    ∃ log, Grows size len max s.log log ∧
      (memcpy loadLine (storeText count) text.length s 0 0).storeText count text.length 0 =
        s.withText count text log := by
  have hline : slice s.line 0 text.length = text := by
    have hall : slice s.line 0 (l.length + 1) = text ++ (rest ++ [0]) := by
      rw [h.text,hl,List.append_assoc]
    exact slice_take hall
  have hcopy : Grows size len max s.log
      (s.log ++ copyLog .readLine (.writeText count) text.length 0 0) := by
    refine grows_copy (fun i _ hi => h.read ?_) (fun i _ hi => ⟨hmax,by omega⟩)
    rw [hl,List.length_append]
    omega
  refine ⟨_,hcopy.note (a := .writeText count text.length) ⟨hmax,by omega⟩,?_⟩
  rw [copyText_eq,hline]
  simp [storeText,note,withText]

theorem exit_done {text : List UInt8} {log : List MenuAccess}
    (hg : Grows size len max s.log log) (hmax : (count : Int) < max) :
    Done size len max s (((s.withText count text log).storeType count .exit).storeData count 0 0)
      count (count + 1) (some ⟨text,[],.exit⟩) where
  grows := (hg.note (a := .writeType count) hmax).note (a := .writeData count 0)
    ⟨hmax,Nat.succ_pos _⟩
  next := rfl
  item := by
    rintro it ⟨⟩
    refine ⟨?_,?_,update_self _ _ _⟩
    · simp only [storeData,storeType,note,withText,update_self]
      exact slice_terminated _ text
    · simp only [storeData,storeType,note,withText,update_self]
      rfl
  keeps := fun i hi => ⟨update_of_ne hi _ _,update_of_ne hi _ _,update_of_ne hi _ _⟩

theorem rom_done {text name : List UInt8} {log : List MenuAccess} {i : Nat}
    (hg : Grows size len max s.log log) (hmax : (count : Int) < max)
    (hname : slice s.line i name.length = name) (hlen : name.length ≤ MAX_DATA_LENGTH)
    (hok : ∀ j, i ≤ j → j < i + name.length → (MenuAccess.readLine j).Ok size len max s.log) :
    Done size len max s ((memcpy loadLine (storeData count) name.length
        ((s.withText count text log).storeType count .romfs) 0 i).storeData count name.length 0)
      count (count + 1) (some ⟨text,name,.romfs⟩) := by
  rw [copyData_eq]
  have hline : ((s.withText count text log).storeType count .romfs).line = s.line := rfl
  have htype := hg.note (a := .writeType count) hmax
  have hcopy : Grows size len max s.log
      (log ++ [.writeType count] ++ copyLog .readLine (.writeData count) name.length 0 i) :=
    htype.trans (grows_copy (fun j hj hj' => ok_mono (hok j hj hj') htype.subset)
      (fun j _ hj' => ⟨hmax,by omega⟩))
  rw [hline,hname]
  refine ⟨hcopy.note (a := .writeData count name.length) ⟨hmax,by omega⟩,rfl,?_,fun i hi =>
    ⟨update_of_ne hi _ _,?_,update_of_ne hi _ _⟩⟩
  · rintro it ⟨⟩
    refine ⟨?_,?_,update_self _ _ _⟩
    · simp only [storeData,storeType,note,withText,update_self]
      exact slice_terminated _ text
    · simp only [storeData,storeType,note,withText,update_self]
      exact slice_terminated _ name
  · simp only [storeData,storeType,note,withText,update_of_ne hi]

theorem literals : exitLiteral.drop 0 = exitText ++ [0] ∧ romLiteral.drop 0 = romText ++ [0] ∧
    (∀ c ∈ exitText, c ≠ 0) ∧ ∀ c ∈ romText, c ≠ 0 := by
  have hexit : exitText.all (· ≠ 0) = true := by decide
  have hrom : romText.all (· ≠ 0) = true := by decide
  refine ⟨by decide,by decide,?_,?_⟩
  · simpa only [List.all_eq_true,decide_eq_true_eq] using hexit
  · simpa only [List.all_eq_true,decide_eq_true_eq] using hrom

theorem parseFields_done (len : Nat) (h : Loaded size s l) {text data : List UInt8}
    (hl : lineFields l = some (text,data)) (hmax : (count : Int) < max)
    (hle : l.length ≤ MAX_LINE_LENGTH) :
    Done size len max s (s.parseFields count l.length text.length).1 count
      (s.parseFields count l.length text.length).2 (lineItem l) := by
  have hsplit := lineFields_split hl
  have hlen : l.length = text.length + data.length + 1 := by
    rw [hsplit,List.length_append,List.length_cons]
    omega
  have hdlen : l.length - text.length - 1 = data.length := by omega
  have hdata : slice s.line (text.length + 1) (data.length + 1) = data ++ [0] := by
    have hall : slice s.line 0 (l.length + 1) = (text ++ [':'.toUInt8]) ++ (data ++ [0]) := by
      rw [h.text,hsplit]
      simp
    simpa using slice_drop hall
  rw [lineItem,if_neg (Nat.not_lt.mpr hle),hl,parseFields]
  dsimp only
  rw [hdlen]
  by_cases hbad : text.length = 0 ∨ data.length = 0 ∨ MAX_TEXT_LENGTH < text.length ∨
      MAX_DATA_LENGTH + 4 < data.length
  · have hbad' : text.length = 0 ∨ data.length = 0 ∨ text.length > MAX_TEXT_LENGTH ∨
        data.length > MAX_DATA_LENGTH + FIXED_PREFIX_LEN := hbad
    rw [if_pos hbad,if_pos hbad']
    exact Done.skip (Grows.refl s.log) (Keeps.refl s count)
  have hbad' : ¬ (text.length = 0 ∨ data.length = 0 ∨ text.length > MAX_TEXT_LENGTH ∨
      data.length > MAX_DATA_LENGTH + FIXED_PREFIX_LEN) := hbad
  rw [if_neg hbad,if_neg hbad']
  obtain ⟨log,hlog,hcopied⟩ := storeText_copied len h hsplit (by omega) hmax
  rw [hcopied]
  obtain ⟨hexit,hrom,hexit0,hrom0⟩ := literals
  have hread : ∀ (log' : List MenuAccess), Grows size len max s.log log' → ∀ j,
      text.length + 1 ≤ j → j ≤ text.length + 1 + data.length →
        (MenuAccess.readLine j).Ok size len max log' := fun log' hg j _ hj =>
    ok_mono (h.read (by omega)) hg.subset
  obtain ⟨log1,hlog1,hrun1⟩ := strncmp_spec (s := s.withText count text log)
    (i := text.length + 1) hdata hexit hexit0 (hread log hlog)
  have hgrow1 := hlog.trans hlog1
  rw [show FIXED_PREFIX_LEN = exitText.length from rfl,hrun1]
  dsimp only
  by_cases hise : exitText.isPrefixOf data = true
  · rw [if_pos hise,if_pos hise]
    exact exit_done hgrow1 hmax
  rw [if_neg hise,if_neg hise]
  obtain ⟨log2,hlog2,hrun2⟩ := strncmp_spec (s := s.withText count text log1)
    (i := text.length + 1) hdata hrom hrom0 (hread log1 hgrow1)
  have hgrow2 := hgrow1.trans hlog2
  have hrun2' : strncmp romLiteral exitText.length { s.withText count text log with log := log1 }
      (text.length + 1) 0 = _ := hrun2
  rw [hrun2']
  dsimp only
  by_cases hisr : romText.isPrefixOf data = true
  · obtain ⟨name,hname⟩ := List.isPrefixOf_iff_prefix.mp hisr
    have hfour : romText.length = 4 := rfl
    have hnlen : data.length = 4 + name.length := by rw [← hname,List.length_append,hfour]
    have hdrop : data.drop 4 = name := by rw [← hname,← hfour,List.drop_left]
    have hsub : data.length - exitText.length = name.length := by
      rw [hnlen]
      exact Nat.add_sub_cancel_left 4 name.length
    have htail : slice s.line (text.length + 1 + 4) (name.length + 1) = name ++ [0] := by
      have hall : slice s.line (text.length + 1) (data.length + 1) = romText ++ (name ++ [0]) := by
        rw [hdata,← hname,List.append_assoc]
      have hd := slice_drop hall
      rwa [List.length_append] at hd
    rw [if_pos hisr,if_pos hisr,hdrop,hsub]
    refine rom_done hgrow2 hmax (slice_take htail) (by omega) fun j hj hj' => ?_
    have hfour' : exitText.length = 4 := rfl
    exact h.read (by omega)
  · rw [if_neg hisr,if_neg hisr]
    exact Done.skip hgrow2 (keeps_withText s count text log2)

-- The line buffer as it is searched.
def withLine (s : MenuParser) (l : List UInt8) (log : List MenuAccess) : MenuParser :=
  { s with
    line := update (overlay s.line 0 l) l.length 0
    log := log }

variable {input : Nat → UInt8} {start : Nat}

theorem storeLine_copied (max : Int) (s : MenuParser)
    (hl : slice input start l.length = l) (hend : start + l.length ≤ len)
    (hfits : l.length < size) : ∃ log, Grows size len max s.log log ∧
      (memcpy (loadInput input) storeLine l.length s 0 start).storeLine l.length 0 =
        s.withLine l log ∧ Loaded size (s.withLine l log) l := by
  have hcopy : Grows size len max s.log
      (s.log ++ copyLog .readInput .writeLine l.length 0 start) :=
    grows_copy (fun i _ hi => (by omega : i < len)) (fun i _ hi => (by omega : i < size))
  refine ⟨_,hcopy.note (a := .writeLine l.length) hfits,?_,slice_terminated _ l,hfits,?_⟩
  · rw [copyLine_eq,hl]
    simp [storeLine,note,withLine]
  · intro i hi
    obtain hlt | rfl := Nat.lt_or_eq_of_le hi
    · have hcopied := mem_copyLog .readInput .writeLine start (Nat.zero_le i)
        (by omega : i < 0 + l.length)
      exact List.mem_append_left _ (List.mem_append_right _ hcopied)
    · exact List.mem_append_right _ List.mem_cons_self

theorem Done.after {s' : MenuParser} {count' : Nat} {o : Option MenuItem} {log : List MenuAccess}
    (h : Done size len max { s.withLine l log with log := log } s' count count' o)
    (hg : Grows size len max s.log log) : Done size len max s s' count count' o :=
  ⟨hg.trans h.grows,h.next,h.item,h.keeps⟩

theorem parseLine_done (hl : slice input start l.length = l) (hend : start + l.length ≤ len)
    (hmax : (count : Int) < max) (hfits : l.length ≤ MAX_LINE_LENGTH → l.length < size)
    (hf : l.length < fuel) : ∃ s' count',
      s.parseLine input fuel count start (start + l.length) = some (s',count') ∧
      Done size len max s s' count count' (lineItem l) ∧
      (l.length = MAX_LINE_LENGTH → .writeLine MAX_LINE_LENGTH ∈ s'.log) := by
  have hsub : start + l.length - start = l.length := Nat.add_sub_cancel_left start l.length
  rw [parseLine,hsub]
  by_cases hlong : l.length > MAX_LINE_LENGTH
  · rw [if_pos hlong,lineItem,if_pos hlong]
    exact ⟨s,count,rfl,Done.skip (Grows.refl s.log) (Keeps.refl s count),fun he => by omega⟩
  have hle : l.length ≤ MAX_LINE_LENGTH := Nat.le_of_not_lt hlong
  obtain ⟨log,hlog,hrun,hload⟩ := storeLine_copied max s hl hend (hfits hle)
  have hread : ∀ j, 0 ≤ j → j ≤ 0 + l.length →
      (MenuAccess.readLine j).Ok size len max (s.withLine l log).log := fun j _ hj =>
    hload.read (by omega)
  obtain ⟨log1,hlog1,hfind⟩ := strchr_spec hload.text hread hf
  have hgrow := hlog.trans hlog1
  have hmark : l.length = MAX_LINE_LENGTH → MenuAccess.writeLine MAX_LINE_LENGTH ∈ log1 :=
    fun he => hlog1.subset (he ▸ hload.written l.length (Nat.le_refl _))
  rw [if_neg hlong]
  dsimp only
  rw [hrun,hfind]
  cases hfields : lineFields l with
  | none =>
    have hitem : lineItem l = none := by
      rw [lineItem,if_neg hlong,hfields]
    rw [hitem]
    exact ⟨s.withLine l log1,count,rfl,⟨hgrow,rfl,nofun,fun _ _ => ⟨rfl,rfl,rfl⟩⟩,hmark⟩
  | some f =>
    obtain ⟨text,data⟩ := f
    have hload1 : Loaded size (s.withLine l log1) l :=
      ⟨hload.text,hload.fits,fun i hi => hlog1.subset (hload.written i hi)⟩
    have hdone := parseFields_done len hload1 hfields hmax hle
    refine ⟨_,_,?_,Done.after hdone hgrow,fun he => hdone.grows.subset (hmark he)⟩
    simp only [Option.bind_eq_bind,Option.bind_some,Option.map_some,Nat.zero_add]
    rfl

end Lines
section Runs

variable {size len fuel : Nat} {max : Int} {s : MenuParser} {input : Nat → UInt8}
  {start count : Nat} {l : List UInt8} {ls : List (List UInt8)}

theorem memchr_spec (size : Nat) (max : Int) (s : MenuParser) (input : Nat → UInt8) (c : UInt8)
    {n i : Nat} (h : i + n ≤ len) :
    ∃ r log, memchr input c n s i = (r,{ s with log := log }) ∧
      Grows size len max s.log log ∧
      (r = none ∧ c ∉ slice input i n ∨
        ∃ m < n, r = some (i + m) ∧ c ∉ slice input i m ∧ input (i + m) = c) := by
  induction n generalizing s i with
  | zero => exact ⟨none,s.log,rfl,Grows.refl s.log,.inl ⟨rfl,List.not_mem_nil⟩⟩
  | succ n ih =>
    have hone : Grows size len max s.log (s.log ++ [.readInput i]) :=
      Grows.one (by omega : i < len)
    by_cases hc : input i = c
    · refine ⟨some i,_,?_,hone,.inr ⟨0,Nat.succ_pos n,rfl,List.not_mem_nil,hc⟩⟩
      exact if_pos hc
    · obtain ⟨r,log,hrun,hlog,hr⟩ := ih (s.note (.readInput i)) (i := i + 1) (by omega)
      refine ⟨r,log,?_,hone.trans hlog,?_⟩
      · exact (if_neg hc).trans hrun
      · have hcons : ∀ m, c ∉ slice input (i + 1) m → c ∉ slice input i (m + 1) := fun m hm hin =>
          (List.mem_cons.mp hin).elim (fun he => hc he.symm) hm
        obtain ⟨hr,hnot⟩ | ⟨m,hm,hr,hnot,hat⟩ := hr
        · exact .inl ⟨hr,hcons n hnot⟩
        · have hadd : i + 1 + m = i + (m + 1) := by omega
          rw [hadd] at hr hat
          exact .inr ⟨m + 1,by omega,hr,hcons m hnot,hat⟩

-- The lines that are left at `start`; the empty one after a last newline does not matter.
def Rest (input : Nat → UInt8) (len start : Nat) (ls : List (List UInt8)) : Prop :=
  start < len ∧ ls = (slice input start (len - start)).splitOn '\n'.toUInt8 ∨
    len ≤ start ∧ (ls = [] ∨ ls = [[]])

-- The next line, as far as `memchr` finds it.
theorem next_line (size : Nat) (max : Int) (s : MenuParser)
    (h : Rest input len start ls) (hlt : start < len) :
    ∃ l ls' r log, ls = l :: ls' ∧
      memchr input '\n'.toUInt8 (len - start) s start = (r,{ s with log := log }) ∧
      Grows size len max s.log log ∧ r.getD len = start + l.length ∧
      slice input start l.length = l ∧ start + l.length ≤ len ∧
      Rest input len (start + l.length + 1) ls' := by
  obtain ⟨-,rfl⟩ | ⟨hge,-⟩ := h
  · obtain ⟨r,log,hrun,hlog,⟨hr,hnot⟩ | ⟨m,hm,hr,hnot,hat⟩⟩ := memchr_spec size max s input
      '\n'.toUInt8 (by omega : start + (len - start) ≤ len)
    · refine ⟨slice input start (len - start),[],r,log,List.splitOn_eq_singleton hnot,hrun,hlog,?_⟩
      rw [slice_length,hr]
      exact ⟨by simp; omega,rfl,by omega,.inr ⟨by omega,.inl rfl⟩⟩
    · obtain ⟨k,hk⟩ : ∃ k, len - start = m + (k + 1) := ⟨len - start - m - 1,by omega⟩
      have hsplit : slice input start (len - start) =
          slice input start m ++ '\n'.toUInt8 :: slice input (start + m + 1) k := by
        rw [hk,slice_add,slice,hat]
      refine ⟨slice input start m,(slice input (start + m + 1) k).splitOn '\n'.toUInt8,r,log,?_,
        hrun,hlog,?_⟩
      · rw [hsplit,List.splitOn_append_cons_self,List.splitOn_eq_singleton hnot]
        rfl
      · rw [slice_length,hr]
        refine ⟨rfl,rfl,by omega,?_⟩
        by_cases hend : start + m + 1 < len
        · have hkk : len - (start + m + 1) = k := by omega
          exact .inl ⟨hend,by rw [hkk]⟩
        · obtain rfl : k = 0 := by omega
          exact .inr ⟨by omega,.inr rfl⟩
  · omega

-- A line that the loop comes to: fewer than `max` items are found before it.
def Reached (max : Int) (count : Nat) (ls : List (List UInt8)) (l : List UInt8) : Prop :=
  ∃ pre post, ls = pre ++ l :: post ∧ ((count + (pre.filterMap lineItem).length : Nat) : Int) < max

theorem filterMap_toList (l : List UInt8) (ls : List (List UInt8)) :
    (l :: ls).filterMap lineItem = (lineItem l).toList ++ ls.filterMap lineItem := by
  cases h : lineItem l with
  | none => rw [List.filterMap_cons_none h]; rfl
  | some it => rw [List.filterMap_cons_some h]; rfl

theorem Reached.cons {l' : List UInt8}
    (h : Reached max (count + (lineItem l).toList.length) ls l') :
    Reached max count (l :: ls) l' := by
  obtain ⟨pre,post,rfl,hmax⟩ := h
  refine ⟨l :: pre,post,rfl,?_⟩
  rwa [filterMap_toList,List.length_append,← Nat.add_assoc]

theorem Reached.tail {l' : List UInt8} (h : Reached max count (l :: ls) l') :
    l' = l ∨ Reached max (count + (lineItem l).toList.length) ls l' := by
  obtain ⟨pre,post,he,hmax⟩ := h
  cases pre with
  | nil => exact .inl (List.cons.inj he).1.symm
  | cons p pre =>
    obtain ⟨rfl,rfl⟩ := List.cons.inj he
    rw [filterMap_toList,List.length_append,← Nat.add_assoc] at hmax
    exact .inr ⟨pre,post,rfl,hmax⟩

def Stores (s : MenuParser) : Nat → List MenuItem → Prop
  | _, [] => True
  | i, it :: its => Stored s i it ∧ Stores s (i + 1) its

-- The items of the lines that are left, as many as fit.
def itemsFrom (max : Int) (count : Nat) (ls : List (List UInt8)) : List MenuItem :=
  (ls.filterMap lineItem).take (max - count).toNat

theorem itemsFrom_cons (l : List UInt8) (ls : List (List UInt8)) (h : (count : Int) < max) :
    itemsFrom max count (l :: ls) =
      (lineItem l).toList ++ itemsFrom max (count + (lineItem l).toList.length) ls := by
  rw [itemsFrom,filterMap_toList,itemsFrom]
  cases lineItem l with
  | none => rfl
  | some it =>
    obtain ⟨n,hn⟩ : ∃ n, (max - count).toNat = n + 1 := ⟨(max - count).toNat - 1,by omega⟩
    have hnext : (max - ((count + 1 : Nat) : Int)).toNat = n := by omega
    rw [Option.toList_some,List.length_singleton,hn,hnext]
    rfl

theorem itemsFrom_full (h : ¬ (count : Int) < max) : itemsFrom max count ls = [] := by
  have hz : (max - count).toNat = 0 := by omega
  rw [itemsFrom,hz,List.take_zero]

theorem itemsFrom_end (h : ls = [] ∨ ls = [[]]) : itemsFrom max count ls = [] := by
  have hnone : ls.filterMap lineItem = [] := by
    obtain rfl | rfl := h <;> rfl
  rw [itemsFrom,hnone,List.take_nil]

-- What the loop over the lines that are left comes to.
structure Ran (size len : Nat) (max : Int) (s s' : MenuParser) (count count' : Nat)
    (ls : List (List UInt8)) : Prop where
  next : count' = count + (itemsFrom max count ls).length
  items : Stores s' count (itemsFrom max count ls)
  keeps : ∀ i < count, ∀ it, Stored s i it → Stored s' i it
  grows : Grows size len max s.log s'.log
  mark : ∀ l, Reached max count ls l → l.length = MAX_LINE_LENGTH →
    .writeLine MAX_LINE_LENGTH ∈ s'.log

theorem Ran.stop (h : itemsFrom max count ls = []) (hr : ∀ l, Reached max count ls l → l = []) :
    Ran size len max s s count count ls where
  next := by rw [h]; rfl
  items := by rw [h]; exact trivial
  keeps := fun _ _ _ hs => hs
  grows := Grows.refl s.log
  mark := fun l hl hlen => by
    rw [hr l hl] at hlen
    exact absurd hlen (by decide)

theorem Ran.cons {s1 s' : MenuParser} {count1 count' : Nat} (hmax : (count : Int) < max)
    (h : Done size len max s s1 count count1 (lineItem l))
    (hm : l.length = MAX_LINE_LENGTH → .writeLine MAX_LINE_LENGTH ∈ s1.log)
    (hr : Ran size len max s1 s' count1 count' ls) :
    Ran size len max s s' count count' (l :: ls) := by
  obtain rfl := h.next
  have hitems := itemsFrom_cons l ls hmax
  refine ⟨?_,?_,fun i hi it hs => ?_,h.grows.trans hr.grows,fun l' hl' hlen => ?_⟩
  · rw [hr.next,hitems,List.length_append]
    omega
  · rw [hitems]
    cases hit : lineItem l with
    | none =>
      have hrest := hr.items
      rw [hit] at hrest
      exact hrest
    | some it =>
      have hrest := hr.items
      have hkept := hr.keeps count
      rw [hit] at hrest hkept
      exact ⟨hkept (Nat.lt_succ_self count) it (h.item it hit),hrest⟩
  · exact hr.keeps i (by omega) it (h.keeps.stored (by omega) hs)
  · obtain rfl | hreach := hl'.tail
    · exact hr.grows.subset (hm hlen)
    · exact hr.mark l' hreach hlen

theorem parseLines_ran (size : Nat) (max : Int) (s : MenuParser)
    (hf : len - start + 2 ≤ fuel) (h : Rest input len start ls)
    (hfits : ∀ l, Reached max count ls l → l.length ≤ MAX_LINE_LENGTH → l.length < size) :
    ∃ s' count', parseLines input len max fuel s start count = some (s',count') ∧
      Ran size len max s s' count count' ls := by
  induction fuel generalizing s start count ls with
  | zero => omega
  | succ fuel ih =>
    rw [parseLines]
    by_cases hgo : start < len ∧ (count : Int) < max
    · obtain ⟨hlt,hmax⟩ := hgo
      obtain ⟨l,ls,r,log,rfl,hfind,hlog,hr,hl,hend,hrest⟩ :=
        next_line size max s h hlt
      have hreach : Reached max count (l :: ls) l := ⟨[],ls,rfl,hmax⟩
      obtain ⟨s1,count1,hline,hdone,hmark⟩ := parseLine_done (s := { s with log := log })
        hl hend hmax (hfits l hreach) (by omega : l.length < fuel)
      have hdone' : Done size len max s s1 count count1 (lineItem l) :=
        ⟨hlog.trans hdone.grows,hdone.next,hdone.item,hdone.keeps⟩
      have hnext : ∀ l', Reached max count1 ls l' → l'.length ≤ MAX_LINE_LENGTH →
          l'.length < size := fun l' hl' => by
        rw [hdone.next] at hl'
        exact hfits l' hl'.cons
      obtain ⟨s',count',hrun,hran⟩ := ih s1 (by omega) hrest hnext
      refine ⟨s',count',?_,Ran.cons hmax hdone' hmark hran⟩
      rw [if_pos ⟨hlt,hmax⟩]
      simp only [hfind,hr,hline,Option.bind_eq_bind,Option.bind_some]
      exact hrun
    · rw [if_neg hgo]
      refine ⟨s,count,rfl,?_⟩
      by_cases hlt : start < len
      · have hfull : ¬ (count : Int) < max := fun hm => hgo ⟨hlt,hm⟩
        refine Ran.stop (itemsFrom_full hfull) ?_
        rintro l ⟨pre,post,-,hm⟩
        omega
      · obtain ⟨hl,-⟩ | ⟨-,hls⟩ := h
        · exact absurd hl hlt
        · refine Ran.stop (itemsFrom_end hls) ?_
          rintro l ⟨pre,post,he,-⟩
          obtain rfl | rfl := hls
          · simp at he
          · cases pre with
            | nil => exact (List.cons.inj he).1.symm
            | cons p pre => simp at he

end Runs
end MenuParser

section Menus
open MenuParser

variable {fuel size len : Nat} {max : Int} {input : Nat → UInt8}

-- All lines of the input, and the arguments of a caller that passes no NULL.
def menuLines (input : Nat → UInt8) (len : Nat) : List (List UInt8) :=
  (slice input 0 len).splitOn '\n'.toUInt8

def menuArgs (input : Nat → UInt8) (len : Nat) (max : Int) : MenuArgs :=
  ⟨some input,len,max,true,true⟩

-- The items that the input stands for.
def menuItems (input : Nat → UInt8) (len : Nat) (max : Nat) : List MenuItem :=
  ((menuLines input len).filterMap lineItem).take max

theorem rest_all (input : Nat → UInt8) (len : Nat) : Rest input len 0 (menuLines input len) := by
  cases len with
  | zero => exact .inr ⟨Nat.le_refl 0,.inr rfl⟩
  | succ n => exact .inl ⟨Nat.succ_pos n,rfl⟩

theorem parse_all (size : Nat) (max : Int) (s : MenuParser) (hf : len + 2 ≤ fuel)
    (hfits : ∀ l, Reached max 0 (menuLines input len) l → l.length ≤ MAX_LINE_LENGTH →
      l.length < size) :
    ∃ s' count, parseLines input len max fuel s 0 0 = some (s',count) ∧
      Ran size len max s s' 0 count (menuLines input len) :=
  parseLines_ran size max s (by omega) (rest_all input len) hfits

theorem parseMenu_eq (s : MenuParser) (hlen : len ≠ 0) (hmax : max ≠ 0) :
    parseMenu fuel s (menuArgs input len max) =
      (parseLines input len max fuel s 0 0).map fun r => (decide (r.2 > 0),some r.2,r.1) := by
  have hargs : ¬ (len = 0 ∨ max = 0 ∨ !true ∨ !true) := by simp [hlen,hmax]
  rw [parseMenu,menuArgs]
  dsimp only
  rw [if_neg hargs]
  cases parseLines input len max fuel s 0 0 <;> rfl

theorem menu_parsed (hf : len + 2 ≤ fuel) (s : MenuParser) (hlen : 1 ≤ len) {n : Nat} (hn : 1 ≤ n) :
    ∃ b s', parseMenu fuel s (menuArgs input len n) =
        some (b,some (menuItems input len n).length,s') ∧
      (b = true ↔ 1 ≤ (menuItems input len n).length) ∧ Stores s' 0 (menuItems input len n) := by
  obtain ⟨s',count,hrun,hran⟩ := parse_all (MAX_LINE_LENGTH + 1) n s hf
    (fun _ _ hle => Nat.lt_succ_of_le hle)
  have hitems : itemsFrom n 0 (menuLines input len) = menuItems input len n := by
    rw [itemsFrom,menuItems]
    congr 1
  have hcount := hran.next
  have hstored := hran.items
  rw [hitems] at hcount hstored
  rw [Nat.zero_add] at hcount
  rw [parseMenu_eq s (by omega) (by omega),hrun,← hcount]
  exact ⟨_,s',rfl,by rw [decide_eq_true_iff]; rfl,by rwa [hcount] at *⟩

-- Each access is proper after those before it.
def AllOk (size len : Nat) (max : Int) (log : List MenuAccess) : Prop :=
  ∀ pre a post, log = pre ++ a :: post → a.Ok size len max pre

theorem allOk_iff {log : List MenuAccess} : AllOk size len max log ↔ Grows size len max [] log := by
  constructor
  · exact fun h => ⟨log,rfl,h⟩
  · rintro ⟨new,rfl,h⟩
    exact h

theorem AllOk.mem {log : List MenuAccess} (h : AllOk size len max log) {i : Nat}
    (hi : .writeLine i ∈ log) : i < size := by
  obtain ⟨pre,post,he⟩ := List.append_of_mem hi
  exact h pre _ post he

-- A full line is followed by a NUL outside the line buffer.
theorem parser_marks (input : Nat → UInt8) (hf : len + 2 ≤ fuel) (s : MenuParser)
    (hlen : len ≠ 0) (hmax : max ≠ 0) :
    ∃ b n s', parseMenu fuel s (menuArgs input len max) = some (b,n,s') ∧
      ∀ l, Reached max 0 (menuLines input len) l → l.length = MAX_LINE_LENGTH →
        .writeLine MAX_LINE_LENGTH ∈ s'.log := by
  obtain ⟨s',count,hrun,hran⟩ := parse_all (MAX_LINE_LENGTH + 1) max s hf
    (fun _ _ hle => Nat.lt_succ_of_le hle)
  exact ⟨_,_,s',by rw [parseMenu_eq s hlen hmax,hrun]; rfl,hran.mark⟩

theorem parser_fits (hf : len + 2 ≤ fuel) {s : MenuParser} (hs : s.log = []) (hlen : len ≠ 0)
    (hmax : max ≠ 0)
    (h : ∀ l, Reached max 0 (menuLines input len) l → l.length ≠ MAX_LINE_LENGTH) :
    ∃ b n s', parseMenu fuel s (menuArgs input len max) = some (b,n,s') ∧
      AllOk MAX_LINE_LENGTH len max s'.log := by
  obtain ⟨s',count,hrun,hran⟩ := parse_all MAX_LINE_LENGTH max s hf
    (fun l hl hle => Nat.lt_of_le_of_ne hle (h l hl))
  have hgrows := hran.grows
  rw [hs] at hgrows
  exact ⟨_,_,s',by rw [parseMenu_eq s hlen hmax,hrun]; rfl,allOk_iff.mpr hgrows⟩

-- With nothing to parse, or no place for an item, nothing is touched.
theorem parser_idle (fuel : Nat) (input : Nat → UInt8) {s : MenuParser} (hs : s.log = [])
    (h : len = 0 ∨ max = 0) :
    parseMenu fuel s (menuArgs input len max) = some (false,none,s) ∧
      AllOk MAX_LINE_LENGTH len max s.log ∧
      ∀ l, Reached max 0 (menuLines input len) l → l.length ≠ MAX_LINE_LENGTH := by
  refine ⟨?_,?_,?_⟩
  · rw [parseMenu,menuArgs]
    dsimp only
    rw [if_pos (h.imp_right .inl)]
  · rw [hs,allOk_iff]
    exact Grows.refl []
  · rintro l ⟨pre,post,he,hm⟩ hl
    obtain rfl | rfl := h
    · have hmem : l ∈ menuLines input 0 := by
        rw [he]
        exact List.mem_append_right _ List.mem_cons_self
      rw [List.mem_singleton.mp hmem] at hl
      exact absurd hl (by decide)
    · omega

theorem parser_bounds (hf : len + 2 ≤ fuel) (input : Nat → UInt8) (max : Int) (s : MenuParser)
    (hs : s.log = []) : ∃ b n s', parseMenu fuel s (menuArgs input len max) = some (b,n,s') ∧
      (AllOk MAX_LINE_LENGTH len max s'.log ↔
        ∀ l, Reached max 0 (menuLines input len) l → l.length ≠ MAX_LINE_LENGTH) := by
  by_cases hargs : len = 0 ∨ max = 0
  · obtain ⟨hrun,hok,hfit⟩ := parser_idle fuel input hs hargs
    exact ⟨_,_,_,hrun,iff_of_true hok hfit⟩
  obtain ⟨hlen,hmax⟩ := not_or.mp hargs
  obtain ⟨b,n,s',hrun,hmark⟩ := parser_marks input hf s hlen hmax
  refine ⟨b,n,s',hrun,?_,fun hfit => ?_⟩
  · intro hok l hl hfull
    exact Nat.lt_irrefl _ (hok.mem (hmark l hl hfull))
  · obtain ⟨b',n',t,hrun',hok⟩ := parser_fits hf hs hlen hmax hfit
    cases Option.some.inj (hrun.symm.trans hrun')
    exact hok

def blankParser : MenuParser := ⟨fun _ => 0,fun _ _ => 0,fun _ _ => 0,fun _ => .exit,[]⟩

def bytesAt (bs : List UInt8) (i : Nat) : UInt8 := bs.getD i 0

-- `a:exit`, and a line without a colon
def plainMenu : List UInt8 := [0x61,0x3a,0x65,0x78,0x69,0x74,0x0a,0x62]

theorem menu_parsed_plain : ∃ b s', parseMenu 10 blankParser (menuArgs (bytesAt plainMenu) 8 1) =
      some (b,some (menuItems (bytesAt plainMenu) 8 1).length,s') ∧
    (b = true ↔ 1 ≤ (menuItems (bytesAt plainMenu) 8 1).length) ∧
      Stores s' 0 (menuItems (bytesAt plainMenu) 8 1) :=
  menu_parsed (Nat.le_refl 10) blankParser (by decide) (Nat.le_refl 1)

theorem parser_bounds_plain :
    ∃ b n s', parseMenu 10 blankParser (menuArgs (bytesAt plainMenu) 8 1) = some (b,n,s') ∧
      (AllOk MAX_LINE_LENGTH 8 1 s'.log ↔
        ∀ l, Reached 1 0 (menuLines (bytesAt plainMenu) 8) l → l.length ≠ MAX_LINE_LENGTH) :=
  parser_bounds (Nat.le_refl 10) _ 1 blankParser rfl

-- A single line of 110 bytes.
theorem full_line_overflows :
    ∃ b n s', parseMenu 112 blankParser (menuArgs (fun _ => 0x61) 110 1) = some (b,n,s') ∧
      ¬ AllOk MAX_LINE_LENGTH 110 1 s'.log := by
  obtain ⟨b,n,s',hrun,hmark⟩ := parser_marks (fun _ => 0x61)
    (Nat.le_refl 112) blankParser (by decide) (by decide : (1 : Int) ≠ 0)
  have hnot : '\n'.toUInt8 ∉ slice (fun _ => (0x61 : UInt8)) 0 110 := fun hin => by
    obtain ⟨x,-,-,hx⟩ := mem_slice hin
    exact absurd hx (by decide)
  have hreach : Reached 1 0 (menuLines (fun _ => 0x61) 110) (slice (fun _ => 0x61) 0 110) :=
    ⟨[],[],List.splitOn_eq_singleton hnot,by decide⟩
  refine ⟨b,n,s',hrun,fun hok => ?_⟩
  exact Nat.lt_irrefl _ (hok.mem (hmark _ hreach (slice_length _ _ _)))

end Menus
end RoscoM68k
