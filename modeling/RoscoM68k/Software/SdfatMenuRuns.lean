import RoscoM68k.Base.ByteStrings
import RoscoM68k.Software.SdfatMenu

namespace RoscoM68k
open Function

-- The line so far, in cleared memory.
structure PromptAt (p : Prompt) (line : List UInt8) : Prop where
  len : p.len = line.length
  room : line.length ≤ 255
  text : slice p.mem 0 line.length = line
  nonzero : 0 ∉ line
  zeros : ∀ i, line.length ≤ i → i < 256 → p.mem i = 0

namespace PromptAt

variable {p p' : Prompt} {line : List UInt8} {c : UInt8} {keys : List UInt8}

theorem erase (h : PromptAt p line) (hne : line ≠ []) : PromptAt p.erase line.dropLast := by
  have hlen := h.len
  have hroom := h.room
  have hpos : 0 < line.length := List.length_pos_of_ne_nil hne
  have hshort : line.dropLast.length = line.length - 1 := List.length_dropLast
  refine ⟨?_,by omega,?_,fun hz => h.nonzero (List.mem_of_mem_dropLast hz),fun i hi hi' => ?_⟩
  · rw [hshort,← hlen]
    rfl
  · have hsplit : slice p.mem 0 line.length = line.dropLast ++ [line.getLast hne] := by
      rw [h.text,List.dropLast_append_getLast]
    have hbelow := slice_take hsplit
    rw [hshort] at hbelow ⊢
    rw [Prompt.erase,slice_update_above (by omega)]
    exact hbelow
  · rw [Prompt.erase]
    dsimp only
    by_cases hlast : i = p.len - 1
    · rw [hlast,update_self]
    · rw [update_of_ne hlast]
      exact h.zeros i (by omega) hi'

theorem erase_iterate (h : PromptAt p line) : PromptAt (Prompt.erase^[p.len] p) [] := by
  rw [h.len]
  obtain ⟨n,hn⟩ : ∃ n, n = line.length := ⟨_,rfl⟩
  rw [← hn]
  induction n generalizing p line with
  | zero =>
    obtain rfl := List.length_eq_zero_iff.mp hn.symm
    exact h
  | succ n ih =>
    have hne : line ≠ [] := List.ne_nil_of_length_eq_add_one hn.symm
    rw [iterate_succ_apply]
    exact ih (h.erase hne) (by rw [List.length_dropLast]; omega)

theorem add (h : PromptAt p line) (hroom : line.length < 255) (hc : c ≠ 0) :
    PromptAt ⟨update p.mem p.len c,p.len + 1⟩ (line ++ [c]) := by
  have hlen := h.len
  have hlong : (line ++ [c]).length = line.length + 1 := List.length_append
  refine ⟨by rw [hlong,← hlen],by omega,?_,?_,fun i hi hi' => ?_⟩
  · rw [hlong,slice_succ,Nat.zero_add]
    dsimp only
    rw [slice_update_above (by omega),h.text,← hlen,update_self]
  · rw [List.mem_append,List.mem_singleton]
    exact not_or.mpr ⟨h.nonzero,hc.symm⟩
  · dsimp only
    rw [update_of_ne (by omega)]
    exact h.zeros i (by omega) hi'

theorem key (h : PromptAt p line) (c : UInt8) : PromptAt (p.key 256 c) (editKey line c) := by
  have hlen := h.len
  have hroom := h.room
  rw [Prompt.key,editKey]
  split_ifs with hback hpos hclear hnew hnew' hnew'
  · exact h.erase (List.ne_nil_of_length_pos (by omega))
  · obtain rfl : line = [] := List.length_eq_zero_iff.mp (by omega)
    exact h
  · exact h.erase_iterate
  · refine h.add (by omega) ?_
    rintro rfl
    exact absurd hnew.2.1 (by decide)
  · omega
  · omega
  · exact h

theorem readline (h : PromptAt p line) (hrun : p.readline 256 keys = some p') :
    PromptAt p' ((keys.takeWhile (· ≠ 0x0d)).foldl editKey line) := by
  induction keys generalizing p line with
  | nil => exact absurd hrun (Option.some_ne_none p').symm
  | cons c keys ih =>
    rw [Prompt.readline] at hrun
    by_cases hc : c = 0x0d
    · rw [if_pos hc] at hrun
      obtain rfl := Option.some.inj hrun
      rw [List.takeWhile_cons_of_neg (by simpa using hc)]
      have hsame : update p.mem p.len 0 = p.mem :=
        update_eq_self_iff.mpr (h.zeros p.len h.len.ge (by rw [h.len]; have := h.room; omega)).symm
      rw [hsame]
      exact h
    · rw [if_neg hc] at hrun
      rw [List.takeWhile_cons_of_pos (by simpa using hc)]
      exact ih (h.key c) hrun

end PromptAt

theorem promptReadline_line {m : Mem} {keys : List UInt8} {p : Prompt}
    (h : promptReadline m 256 keys = some p) : PromptAt p (editedLine keys) := by
  refine PromptAt.readline ⟨rfl,Nat.zero_le _,rfl,List.not_mem_nil,fun i _ hi => ?_⟩ h
  exact if_pos hi

namespace LineScan

variable {t : LineScan} {c : UInt8 → Bool} {xs : List UInt8} {k : Nat}

-- `k` characters further.
def moved (t : LineScan) (k : Nat) : LineScan :=
  ⟨{ t.line with accesses := t.line.accesses ++ List.range' t.pos k },t.pos + k⟩

theorem next_moved (t : LineScan) (k : Nat) : t.next.moved k = t.moved (k + 1) := by
  have hpos : t.pos + 1 + k = t.pos + (k + 1) := by omega
  rw [moved,moved,← hpos,List.range'_succ,List.append_cons]
  rfl

theorem scan_gives (h : StrAt t.line.mem t.pos xs) (hc : c 0 = false) :
    Gives (fun n => loop (fun t : LineScan => c t.char) next n t)
      (t.moved (xs.takeWhile c).length) := by
  induction xs generalizing t with
  | nil =>
    have hstay : t.moved 0 = t := by
      rw [moved,List.range'_zero,List.append_nil]
      rfl
    have hchar : t.char = 0 := h
    rw [List.takeWhile_nil,List.length_nil,hstay]
    exact Loop.gives_stop (by rw [hchar]; exact hc)
  | cons x xs ih =>
    have hchar : t.char = x := h.2.1
    by_cases hx : c x = true
    · rw [List.takeWhile_cons_of_pos hx,List.length_cons,← next_moved]
      exact Loop.gives_next (by rw [hchar]; exact hx) (ih h.2.2)
    · have hstay : t.moved 0 = t := by
        rw [moved,List.range'_zero,List.append_nil]
        rfl
      rw [List.takeWhile_cons_of_neg hx,List.length_nil,hstay]
      exact Loop.gives_stop (by rw [hchar]; exact Bool.not_eq_true _ ▸ hx)

end LineScan

theorem StrAt.skip {m : Mem} {a : Nat} {xs : List UInt8} (h : StrAt m a xs) (c : UInt8 → Bool) :
    StrAt m (a + (xs.takeWhile c).length) (xs.dropWhile c) := by
  rw [← List.takeWhile_append_dropWhile (p := c) (l := xs)] at h
  exact h.drop

-- A token on a line starts behind blanks, and behind a quote when one comes first.
def opened (rest : List UInt8) : Bool × List UInt8 :=
  let r := rest.dropWhile (· = 0x20)
  if r.head? = some 0x22 then (true,r.tail) else (false,r)

def tokenText (rest : List UInt8) : List UInt8 :=
  (opened rest).2.takeWhile (tokenChar (opened rest).1)

-- From the character on that ends it.
def afterToken (rest : List UInt8) : List UInt8 :=
  (opened rest).2.dropWhile (tokenChar (opened rest).1)

theorem opened_suffix (rest : List UInt8) : (opened rest).2 <:+ rest := by
  have hskip := rest.dropWhile_suffix (p := (· = 0x20))
  rw [opened]
  split_ifs
  · exact (List.tail_suffix _).trans hskip
  · exact hskip

theorem afterToken_suffix (rest : List UInt8) : afterToken rest <:+ rest :=
  (List.dropWhile_suffix _).trans (opened_suffix rest)

theorem token_length (rest : List UInt8) :
    (tokenText rest).length + (afterToken rest).length = (opened rest).2.length := by
  rw [tokenText,afterToken,← List.length_append,List.takeWhile_append_dropWhile]

def Inside (s : CmdLine) : Prop := ∀ a ∈ s.accesses, a ≤ 255

namespace LineScan

variable {t : LineScan} {k : Nat} {rest : List UInt8}

theorem moved_inside (h : Inside t.line) (hk : t.pos + k ≤ 256) : Inside (t.moved k).line := by
  intro a ha
  obtain ha | ha := List.mem_append.mp ha
  · exact h a ha
  · have := List.mem_range'_1.mp ha
    omega

theorem look_inside (h : Inside t.line) (hpos : t.pos ≤ 255) : Inside t.look.line := by
  intro a ha
  obtain ha | ha := List.mem_append.mp ha
  · exact h a ha
  · rw [List.mem_singleton.mp ha]
    exact hpos

-- Behind the blanks.
structure Unquoted (t : LineScan) (rest : List UInt8) (q : Bool × LineScan) : Prop where
  quoted : q.1 = (opened rest).1
  string : StrAt q.2.line.mem q.2.pos (opened rest).2
  mem : q.2.line.mem = t.line.mem
  start : t.pos ≤ q.2.pos
  stop : q.2.pos + (opened rest).2.length = t.pos + (rest.dropWhile (· = 0x20)).length
  inside : Inside t.line → t.pos ≤ 255 → Inside q.2.line

theorem unquote_unquoted (h : StrAt t.line.mem t.pos (rest.dropWhile (· = 0x20))) :
    Unquoted t rest t.unquote := by
  obtain ⟨r,hr⟩ : ∃ r, r = rest.dropWhile (· = 0x20) := ⟨_,rfl⟩
  have hopened : opened rest = if r.head? = some 0x22 then (true,r.tail) else (false,r) := by
    rw [hr]
    rfl
  rw [← hr] at h
  have hchar : t.char = r.headD 0 := h.head
  by_cases hq : r.head? = some 0x22
  · have hquote : t.unquote = (true,t.next) := by
      rw [unquote,if_pos (by rw [hchar,List.headD_eq_head?_getD,hq]; rfl)]
    obtain ⟨r',rfl⟩ : ∃ r', r = 0x22 :: r' := ⟨r.tail,List.eq_cons_of_mem_head? hq⟩
    rw [if_pos hq] at hopened
    rw [hquote]
    refine ⟨by rw [hopened],by rw [hopened]; exact h.2.2,rfl,Nat.le_succ t.pos,?_,?_⟩
    · rw [hopened,← hr]
      dsimp only [next]
      rw [List.tail_cons,List.length_cons]
      omega
    · exact fun hin hpos => look_inside hin hpos
  · have hplain : t.unquote = (false,t) := by
      refine if_neg fun he => hq ?_
      rw [hchar] at he
      cases r with
      | nil => exact absurd he (by decide)
      | cons c r => exact congrArg some he
    rw [if_neg hq] at hopened
    rw [hplain]
    exact ⟨by rw [hopened],by rw [hopened]; exact h,rfl,le_rfl,by rw [hopened,← hr],
      fun hin _ => hin⟩

end LineScan

-- A call on what is left of a line.
structure TokenCall (s : CmdLine) (rest : List UInt8) (token : Nat) (s' : CmdLine) : Prop where
  start : s.cmdPtr ≤ token
  stop : token + (opened rest).2.length = s.cmdPtr + rest.length
  string : StrAt s.mem token (opened rest).2
  mem : s'.mem = update s.mem (token + (tokenText rest).length) 0
  next : s'.cmdPtr = token + (tokenText rest).length + 1
  inside : Inside s → Inside s'

theorem nextCmdToken_gives {s : CmdLine} {rest : List UInt8} (h : StrAt s.mem s.cmdPtr rest)
    (hroom : s.cmdPtr + rest.length ≤ 255) :
    ∃ token s', Gives (fun n => nextCmdToken s n) (token,s') ∧ TokenCall s rest token s' := by
  obtain ⟨k,hk⟩ : ∃ k, k = (rest.takeWhile (· = 0x20)).length := ⟨_,rfl⟩
  have hlen : k + (rest.dropWhile (· = 0x20)).length = rest.length := by
    rw [hk,← List.length_append,List.takeWhile_append_dropWhile]
  have hblanks := LineScan.scan_gives (t := ⟨s,s.cmdPtr⟩) (c := fun c => c = 0x20) h (by decide)
  have hskip := h.skip (· = 0x20)
  rw [← hk] at hblanks hskip
  obtain ⟨t,ht⟩ : ∃ t, t = (LineScan.moved ⟨s,s.cmdPtr⟩ k).look := ⟨_,rfl⟩
  have htpos : t.pos = s.cmdPtr + k := by rw [ht]; rfl
  have htmem : t.line.mem = s.mem := by rw [ht]; rfl
  have hunquoted : LineScan.Unquoted t rest t.unquote :=
    LineScan.unquote_unquoted (by rw [htmem,htpos]; exact hskip)
  obtain ⟨q,hq⟩ : ∃ q, q = t.unquote := ⟨_,rfl⟩
  rw [← hq] at hunquoted
  have hchar : tokenChar q.1 0 = false := by simp [tokenChar]
  have htoken := LineScan.scan_gives (c := tokenChar q.1) hunquoted.string hchar
  obtain ⟨e,he⟩ : ∃ e, e = q.2.moved ((opened rest).2.takeWhile (tokenChar q.1)).length := ⟨_,rfl⟩
  have htext := token_length rest
  have hstop := hunquoted.stop
  have hstart := hunquoted.start
  have hepos : e.pos = q.2.pos + (tokenText rest).length := by
    rw [he,hunquoted.quoted]
    rfl
  have hemem : e.line.mem = s.mem := by
    rw [he,← htmem,← hunquoted.mem]
    rfl
  rw [← he] at htoken
  refine ⟨q.2.pos,e.look.cut,hblanks.bind ?_,?_⟩
  · rw [← ht,← hq]
    exact htoken.bind (.of_eq fun _ => rfl)
  · refine ⟨by omega,by omega,?_,?_,?_,fun hin => ?_⟩
    · rw [← htmem,← hunquoted.mem]
      exact hunquoted.string
    · rw [← hepos,← hemem]
      rfl
    · rw [← hepos]
      rfl
    · have hblank : Inside t.line := by
        rw [ht]
        refine LineScan.look_inside (LineScan.moved_inside hin ?_) ?_
        · dsimp only
          omega
        · change s.cmdPtr + k ≤ 255
          omega
      have hq : Inside q.2.line := hunquoted.inside hblank (by omega)
      have hend : Inside e.line := by
        rw [he]
        refine LineScan.moved_inside hq ?_
        rw [hunquoted.quoted]
        change q.2.pos + (tokenText rest).length ≤ 256
        omega
      have hstop' : e.pos ≤ 255 := by omega
      exact LineScan.look_inside (LineScan.look_inside hend hstop') hstop'

section Counts

variable {mode : LineMode} {c : UInt8 → Bool} {xs rest : List UInt8}

theorem tokenCount_mode (hmode : ∀ x xs, x ≠ 0 → tokenCount mode (x :: xs) =
    if c x then tokenCount mode xs else tokenCount .gap xs + 1) (hxs : 0 ∉ xs) :
    tokenCount mode xs =
      if xs.dropWhile c = [] then 1 else tokenCount .gap (xs.dropWhile c).tail + 1 := by
  induction xs with
  | nil =>
    rw [List.dropWhile_nil,if_pos rfl]
    cases mode <;> rfl
  | cons x xs ih =>
    obtain ⟨hx,hrest⟩ := not_or.mp (mt List.mem_cons.mpr hxs)
    rw [hmode x xs (Ne.symm hx)]
    by_cases hc : c x = true
    · rw [if_pos hc,List.dropWhile_cons_of_pos hc,ih hrest]
    · rw [if_neg hc,List.dropWhile_cons_of_neg hc,if_neg (List.cons_ne_nil x xs),List.tail_cons]

theorem tokenCount_word (hxs : 0 ∉ xs) : tokenCount .word xs =
    if xs.dropWhile (tokenChar false) = [] then 1
    else tokenCount .gap (xs.dropWhile (tokenChar false)).tail + 1 := by
  refine tokenCount_mode (fun x xs hx => ?_) hxs
  rw [tokenCount]
  by_cases hstop : x = 0x20 ∨ x = 0x22
  · rw [if_pos hstop,if_neg]
    obtain rfl | rfl := hstop
    · decide
    · decide
  · obtain ⟨hblank,hquote⟩ := not_or.mp hstop
    rw [if_neg hstop,if_pos (by simp [tokenChar,hx,hblank,hquote])]

theorem tokenCount_quotes (hxs : 0 ∉ xs) : tokenCount .quotes xs =
    if xs.dropWhile (tokenChar true) = [] then 1
    else tokenCount .gap (xs.dropWhile (tokenChar true)).tail + 1 := by
  refine tokenCount_mode (fun x xs hx => ?_) hxs
  rw [tokenCount]
  by_cases hquote : x = 0x22
  · rw [if_pos hquote,if_neg (by rw [hquote]; decide)]
  · rw [if_neg hquote,if_pos (by simp [tokenChar,hx,hquote])]

theorem tokenCount_blanks (xs : List UInt8) :
    tokenCount .gap (xs.dropWhile (· = 0x20)) = tokenCount .gap xs := by
  induction xs with
  | nil => rfl
  | cons x xs ih =>
    by_cases hx : x = 0x20
    · rw [List.dropWhile_cons_of_pos (by simpa using hx),ih,tokenCount,if_pos hx]
    · rw [List.dropWhile_cons_of_neg (by simpa using hx)]

-- One token after the other.
theorem tokenCount_gap (hrest : 0 ∉ rest) : tokenCount .gap rest =
    if afterToken rest = [] then 1 else tokenCount .gap (afterToken rest).tail + 1 := by
  obtain ⟨r,hr⟩ : ∃ r, r = rest.dropWhile (· = 0x20) := ⟨_,rfl⟩
  have hopened : opened rest = if r.head? = some 0x22 then (true,r.tail) else (false,r) := by
    rw [hr]
    rfl
  have hzero : 0 ∉ r := by
    rw [hr]
    exact fun h => hrest ((rest.dropWhile_sublist (p := (· = 0x20))).mem h)
  have hfirst := rest.head?_dropWhile_not (· = 0x20)
  rw [← hr] at hfirst
  rw [← tokenCount_blanks,← hr,afterToken]
  cases r with
  | nil => rw [hopened]; rfl
  | cons x r =>
    obtain ⟨-,hzero'⟩ := not_or.mp (mt List.mem_cons.mpr hzero)
    have hblank : x ≠ 0x20 := by simpa using hfirst
    by_cases hquote : x = 0x22
    · rw [List.head?_cons,if_pos (congrArg some hquote)] at hopened
      rw [hopened,tokenCount,if_neg hblank,if_pos hquote]
      exact tokenCount_quotes hzero'
    · rw [List.head?_cons,if_neg (fun he => hquote (Option.some.inj he))] at hopened
      rw [hopened,← tokenCount_word hzero,tokenCount,tokenCount,if_neg hblank,if_neg hquote,
        if_neg (not_or.mpr ⟨hblank,hquote⟩)]

end Counts

-- What is left of a line, up to the cleared end of the buffer.
structure LineRest (m : Mem) (p : Nat) (rest : List UInt8) : Prop where
  string : StrAt m p rest
  room : p + rest.length ≤ 255
  zeros : ∀ i, p + rest.length ≤ i → i < 256 → m i = 0

namespace TokenCall

variable {s s' : CmdLine} {token : Nat} {d : UInt8} {rest rest' : List UInt8}

theorem keeps (h : TokenCall s rest token s') {a : Nat} (ha : a < s.cmdPtr) :
    s'.mem a = s.mem a := by
  have hstart := h.start
  rw [h.mem]
  exact update_of_ne (by omega) 0 s.mem

theorem text (h : TokenCall s rest token s') : StrAt s'.mem token (tokenText rest) := by
  have hstring := h.string
  rw [← (opened rest).2.takeWhile_append_dropWhile (p := tokenChar (opened rest).1)] at hstring
  rw [h.mem]
  exact hstring.cut

theorem advance (h : TokenCall s rest token s') :
    s'.cmdPtr + (afterToken rest).length = s.cmdPtr + rest.length + 1 := by
  have hstop := h.stop
  have hnext := h.next
  have htext := token_length rest
  omega

theorem more (h : TokenCall s rest token s') (hline : LineRest s.mem s.cmdPtr rest)
    (hafter : afterToken rest = d :: rest') : LineRest s'.mem s'.cmdPtr rest' := by
  have hadvance := h.advance
  have hroom := hline.room
  have hnext := h.next
  rw [hafter,List.length_cons] at hadvance
  have hstring := h.string.skip (tokenChar (opened rest).1)
  change StrAt s.mem (token + (tokenText rest).length) (afterToken rest) at hstring
  rw [hafter] at hstring
  refine ⟨?_,by omega,fun i hi hi' => ?_⟩
  · rw [hnext]
    refine hstring.2.2.congr fun x hx _ => ?_
    rw [h.mem]
    exact update_of_ne (by omega) 0 s.mem
  · rw [h.mem,update_of_ne (by omega)]
    exact hline.zeros i (by omega) hi'

theorem last (h : TokenCall s rest token s') (hline : LineRest s.mem s.cmdPtr rest)
    (hafter : afterToken rest = []) (hroom : s'.cmdPtr ≤ 255) : LineRest s'.mem s'.cmdPtr [] := by
  have hadvance := h.advance
  have hnext := h.next
  rw [hafter,List.length_nil] at hadvance
  have hzeros (i : Nat) (hi : s'.cmdPtr ≤ i) (hi' : i < 256) : s'.mem i = 0 := by
    rw [h.mem,update_of_ne (by omega)]
    exact hline.zeros i (by omega) hi'
  exact ⟨hzeros _ le_rfl (by omega),hroom,fun i hi hi' => hzeros i hi hi'⟩

end TokenCall

def tokenTexts : Nat → List UInt8 → List (List UInt8)
  | 0, _ => []
  | k + 1, rest => tokenText rest :: tokenTexts k (afterToken rest).tail

-- A token in the line.
def TokenAt (m : Mem) (token : Nat) (text : List UInt8) : Prop :=
  StrAt m token text ∧ token + text.length ≤ 255

-- Calls on what is left of a line.
structure TokenCalls (s : CmdLine) (k : Nat) (rest : List UInt8) (tokens : List Nat)
    (s' : CmdLine) : Prop where
  texts : List.Forall₂ (TokenAt s'.mem) tokens (tokenTexts k rest)
  keeps : ∀ a < s.cmdPtr, s'.mem a = s.mem a
  inside : Inside s → Inside s'

theorem nextTokens_gives {s : CmdLine} {k : Nat} {rest : List UInt8}
    (h : LineRest s.mem s.cmdPtr rest)
    (hk : s.cmdPtr + rest.length + k ≤ 255 + tokenCount .gap rest) :
    ∃ tokens s', Gives (fun n => nextTokens s n k) (tokens,s') ∧ TokenCalls s k rest tokens s' := by
  induction k generalizing s rest with
  | zero => exact ⟨[],s,.of_eq fun _ => rfl,.nil,fun _ _ => rfl,fun hin => hin⟩
  | succ k ih =>
    obtain ⟨token,s₁,hcall,htoken⟩ := nextCmdToken_gives h.string h.room
    have hadvance := htoken.advance
    have hzero : 0 ∉ rest := fun hz => h.string.nonzero 0 hz rfl
    rw [tokenCount_gap hzero] at hk
    have hrest : ∃ tokens s', Gives (fun n => nextTokens s₁ n k) (tokens,s') ∧
        TokenCalls s₁ k (afterToken rest).tail tokens s' := by
      cases hafter : afterToken rest with
      | nil =>
        rw [hafter,if_pos rfl] at hk
        rw [hafter,List.length_nil] at hadvance
        by_cases hroom : s₁.cmdPtr ≤ 255
        · refine ih (htoken.last h hafter hroom) ?_
          rw [List.tail_nil,List.length_nil,tokenCount]
          omega
        · obtain rfl : k = 0 := by omega
          exact ⟨[],s₁,.of_eq fun _ => rfl,.nil,fun _ _ => rfl,fun hin => hin⟩
      | cons d rest' =>
        rw [hafter,if_neg (List.cons_ne_nil d rest'),List.tail_cons] at hk
        rw [hafter,List.length_cons] at hadvance
        exact ih (htoken.more h hafter) (by rw [List.tail_cons]; omega)
    obtain ⟨tokens,s₂,hcalls,htokens⟩ := hrest
    have hstart := htoken.start
    have hnext := htoken.next
    have hstop := htoken.stop
    have htext := token_length rest
    have hroom := h.room
    refine ⟨token :: tokens,s₂,hcall.bind (hcalls.bind (.of_eq fun _ => rfl)),?_,?_,?_⟩
    · refine .cons ⟨htoken.text.congr fun x _ hx => ?_,by omega⟩ htokens.texts
      exact htokens.keeps x (by omega)
    · exact fun a ha => (htokens.keeps a (by omega)).trans (htoken.keeps ha)
    · exact fun hin => htokens.inside (htoken.inside hin)

-- Accesses stay in the log.
section Logs

variable {s s' : CmdLine} {a n k token : Nat} {tokens : List Nat} {text : List UInt8}
  {texts : List (List UInt8)}

theorem look_logs (t : LineScan) : t.pos ∈ t.look.line.accesses :=
  List.mem_append_right _ (List.mem_singleton_self t.pos)

theorem look_keeps {t : LineScan} (h : a ∈ t.line.accesses) : a ∈ t.look.line.accesses :=
  List.mem_append_left _ h

theorem unquote_keeps {t : LineScan} (h : a ∈ t.line.accesses) :
    a ∈ t.unquote.2.line.accesses := by
  rw [LineScan.unquote]
  split_ifs
  · exact look_keeps h
  · exact h

theorem scan_keeps {c : LineScan → Bool} {t t' : LineScan} (h : a ∈ t.line.accesses)
    (hrun : loop c LineScan.next n t = some t') : a ∈ t'.line.accesses := by
  refine Loop.invariant (fun t : LineScan => a ∈ t.line.accesses) (fun t h => ?_) h hrun
  exact look_keeps (t := t) h

-- The first access of a call is where the last one has left the pointer.
theorem nextCmdToken_logs (h : a = s.cmdPtr ∨ a ∈ s.accesses)
    (hrun : nextCmdToken s n = some (token,s')) : a ∈ s'.accesses := by
  obtain ⟨t,ht,hrun⟩ := Option.bind_eq_some_iff.mp hrun
  obtain ⟨e,he,hrun⟩ := Option.bind_eq_some_iff.mp hrun
  obtain ⟨-,rfl⟩ := Prod.mk.inj (Option.some.inj hrun)
  have hfirst : a = t.pos ∨ a ∈ t.line.accesses := by
    refine Loop.invariant (fun t : LineScan => a = t.pos ∨ a ∈ t.line.accesses) ?_ h ht
    rintro t (rfl | hin)
    · exact .inr (look_logs t)
    · exact .inr (look_keeps hin)
  have hlook : a ∈ t.look.line.accesses := by
    obtain rfl | hin := hfirst
    · exact look_logs t
    · exact look_keeps hin
  exact look_keeps (t := e.look) (look_keeps (scan_keeps (unquote_keeps hlook) he))

theorem nextTokens_succ (hrun : nextTokens s n (k + 1) = some (tokens,s')) :
    ∃ token s₁ rest, nextCmdToken s n = some (token,s₁) ∧ nextTokens s₁ n k = some (rest,s') := by
  obtain ⟨r,hr,hrun⟩ := Option.bind_eq_some_iff.mp hrun
  obtain ⟨rs,hrs,hrun⟩ := Option.bind_eq_some_iff.mp hrun
  obtain ⟨-,rfl⟩ := Prod.mk.inj (Option.some.inj hrun)
  exact ⟨r.1,r.2,rs.1,hr,hrs⟩

theorem nextTokens_keeps (h : a ∈ s.accesses) (hrun : nextTokens s n k = some (tokens,s')) :
    a ∈ s'.accesses := by
  induction k generalizing s tokens with
  | zero =>
    obtain ⟨-,rfl⟩ := Prod.mk.inj (Option.some.inj hrun)
    exact h
  | succ k ih =>
    obtain ⟨token,s₁,rest,hfirst,hmore⟩ := nextTokens_succ hrun
    exact ih (nextCmdToken_logs (.inr h) hfirst) hmore

theorem inspectAll_keeps (h : a ∈ s.accesses) (hrun : inspectAll s n tokens = some (texts,s')) :
    a ∈ s'.accesses := by
  induction tokens generalizing s texts with
  | nil =>
    obtain ⟨-,rfl⟩ := Prod.mk.inj (Option.some.inj hrun)
    exact h
  | cons token tokens ih =>
    obtain ⟨r,hr,hrun⟩ := Option.bind_eq_some_iff.mp hrun
    obtain ⟨rs,hrs,hrun⟩ := Option.bind_eq_some_iff.mp hrun
    obtain ⟨-,rfl⟩ := Prod.mk.inj (Option.some.inj hrun)
    obtain ⟨t,ht,hr⟩ := Option.bind_eq_some_iff.mp hr
    obtain rfl := Option.some.inj hr
    exact ih (look_keeps (scan_keeps h ht)) hrs

end Logs

-- With too many calls one starts behind the buffer.
theorem nextTokens_outside {s : CmdLine} {k : Nat} {rest : List UInt8}
    (h : LineRest s.mem s.cmdPtr rest)
    (hk : 255 + tokenCount .gap rest < s.cmdPtr + rest.length + k) :
    ∃ n₀, ∀ n, n₀ ≤ n → ∀ tokens s', nextTokens s n k = some (tokens,s') → 256 ∈ s'.accesses := by
  have hroom := h.room
  induction k generalizing s rest with
  | zero => omega
  | succ k ih =>
    obtain ⟨token,s₁,⟨n₁,hcall⟩,htoken⟩ := nextCmdToken_gives h.string h.room
    have hadvance := htoken.advance
    have hzero : 0 ∉ rest := fun hz => h.string.nonzero 0 hz rfl
    rw [tokenCount_gap hzero] at hk
    have hrest : ∃ n₂, ∀ n, n₂ ≤ n → ∀ tokens s', nextTokens s₁ n k = some (tokens,s') →
        256 ∈ s'.accesses := by
      cases hafter : afterToken rest with
      | nil =>
        rw [hafter,if_pos rfl] at hk
        rw [hafter,List.length_nil] at hadvance
        by_cases hin : s₁.cmdPtr ≤ 255
        · exact ih (htoken.last h hafter hin) (by rw [List.length_nil,tokenCount]; omega) hin
        · -- The next call reads the byte behind the buffer.
          obtain ⟨j,rfl⟩ : ∃ j, k = j + 1 := ⟨k - 1,by omega⟩
          refine ⟨0,fun n _ tokens s' hrun => ?_⟩
          obtain ⟨_,_,_,hfirst,hmore⟩ := nextTokens_succ hrun
          exact nextTokens_keeps (nextCmdToken_logs (.inl (by omega)) hfirst) hmore
      | cons d rest' =>
        rw [hafter,if_neg (List.cons_ne_nil d rest'),List.tail_cons] at hk
        rw [hafter,List.length_cons] at hadvance
        have hmore := htoken.more h hafter
        exact ih hmore (by omega) hmore.room
    obtain ⟨n₂,hrest⟩ := hrest
    refine ⟨max n₁ n₂,fun n hn tokens s' hrun => ?_⟩
    obtain ⟨token',s₁',rest',hfirst,hmore⟩ := nextTokens_succ hrun
    have hsame : nextCmdToken s n = some (token,s₁) := hcall n (by omega)
    obtain ⟨-,rfl⟩ := Prod.mk.inj (Option.some.inj (hsame.symm.trans hfirst))
    exact hrest n (by omega) rest' s' hmore

-- A caller reads the text of a token, and nothing behind the line.
theorem inspect_gives {s : CmdLine} {token : Nat} {text : List UInt8}
    (h : TokenAt s.mem token text) :
    ∃ s', Gives (fun n => inspect s token n) (text,s') ∧ s'.mem = s.mem ∧
      (Inside s → Inside s') := by
  obtain ⟨hstring,hroom⟩ := h
  have hall : text.takeWhile (fun c : UInt8 => c ≠ 0) = text :=
    List.takeWhile_eq_self_iff.mpr fun c hc => decide_eq_true (hstring.nonzero c hc)
  have hscan := LineScan.scan_gives (t := ⟨s,token⟩) (c := fun c => c ≠ 0) hstring (by decide)
  rw [hall] at hscan
  obtain ⟨t,ht⟩ : ∃ t, t = LineScan.moved ⟨s,token⟩ text.length := ⟨_,rfl⟩
  have hpos : t.pos = token + text.length := by rw [ht]; rfl
  have hmem : t.line.mem = s.mem := by rw [ht]; rfl
  rw [← ht] at hscan
  refine ⟨t.look.line,?_,hmem,fun hin => ?_⟩
  · refine hscan.bind (.of_eq fun _ => ?_)
    have htext : slice t.look.line.mem token (t.look.pos - token) = text := by
      change slice t.line.mem token (t.pos - token) = text
      rw [hpos,hmem,Nat.add_sub_cancel_left]
      exact hstring.slice_eq
    exact congrArg (fun x => some (x,t.look.line)) htext
  · refine LineScan.look_inside ?_ (by omega)
    rw [ht]
    exact LineScan.moved_inside hin (by dsimp only; omega)

theorem inspectAll_gives {s : CmdLine} {tokens : List Nat} {texts : List (List UInt8)}
    (h : List.Forall₂ (TokenAt s.mem) tokens texts) :
    ∃ s', Gives (fun n => inspectAll s n tokens) (texts,s') ∧ (Inside s → Inside s') := by
  induction tokens generalizing s texts with
  | nil =>
    obtain rfl := List.forall₂_nil_left_iff.mp h
    exact ⟨s,.of_eq fun _ => rfl,fun hin => hin⟩
  | cons token tokens ih =>
    obtain ⟨text,texts,htoken,htokens,rfl⟩ := List.forall₂_cons_left_iff.mp h
    obtain ⟨s₁,hrun₁,hmem,hin₁⟩ := inspect_gives htoken
    rw [← hmem] at htokens
    obtain ⟨s₂,hrun₂,hin₂⟩ := ih htokens
    exact ⟨s₂,hrun₁.bind (hrun₂.bind (.of_eq fun _ => rfl)),fun hin => hin₂ (hin₁ hin)⟩

section Words

variable {rest : List UInt8}

-- Without quotes the tokens are the words.
theorem token_word (hzero : 0 ∉ rest) (hquote : 0x22 ∉ rest) :
    tokenText rest = (words 0x20 rest).getD 0 [] ∧
      words 0x20 (afterToken rest).tail = (words 0x20 rest).tail := by
  obtain ⟨r,hr⟩ : ∃ r, r = rest.dropWhile (· = 0x20) := ⟨_,rfl⟩
  have hmem (x : UInt8) (hx : x ∈ r) : x ∈ rest := by
    rw [hr] at hx
    exact (rest.dropWhile_sublist (p := (· = 0x20))).mem hx
  have hopened : opened rest = (false,r) := by
    have hhead : ¬ r.head? = some 0x22 := fun he => hquote (hmem _ (List.mem_of_mem_head? he))
    rw [hr] at hhead ⊢
    exact if_neg hhead
  have hplain (x : UInt8) (hx : x ∈ r) : tokenChar false x = decide (x ≠ 0x20) := by
    have h0 : x ≠ 0 := by
      rintro rfl
      exact hzero (hmem 0 hx)
    have hq : x ≠ 0x22 := by
      rintro rfl
      exact hquote (hmem 0x22 hx)
    simp [tokenChar,h0,hq]
  obtain ⟨htake,hdrop⟩ := takeWhile_agree hplain
  have hfirst := rest.head?_dropWhile_not (· = 0x20)
  rw [← hr] at hfirst
  rw [tokenText,afterToken,hopened,htake,hdrop,← words_dropWhile 0x20 rest,← hr]
  cases r with
  | nil => exact ⟨rfl,rfl⟩
  | cons x r =>
    have hblank : x ≠ 0x20 := by simpa using hfirst
    rw [words_word hblank]
    exact ⟨rfl,rfl⟩

theorem tokenTexts_words (hzero : 0 ∉ rest) (hquote : 0x22 ∉ rest) (k : Nat) :
    tokenTexts k rest = (List.range k).map fun i => (words 0x20 rest).getD i [] := by
  induction k generalizing rest with
  | zero => rfl
  | succ k ih =>
    obtain ⟨hfirst,hmore⟩ := token_word hzero hquote
    have hmem (x : UInt8) (hx : x ∈ (afterToken rest).tail) : x ∈ rest :=
      (afterToken_suffix rest).subset (List.mem_of_mem_tail hx)
    rw [tokenTexts,hfirst,ih (fun h => hzero (hmem 0 h)) (fun h => hquote (hmem 0x22 h)),hmore,
      List.range_succ_eq_map,List.map_cons,List.map_map]
    congr 1
    refine List.map_congr_left fun i _ => ?_
    cases words 0x20 rest <;> rfl

theorem words_length_cons {x c : UInt8} {xs : List UInt8} (hx : x ≠ 0x20) :
    (words 0x20 (x :: c :: xs)).length =
      if c = 0x20 then (words 0x20 xs).length + 1 else (words 0x20 (c :: xs)).length := by
  have hx' : decide (x ≠ 0x20) = true := decide_eq_true hx
  rw [words_word hx,List.length_cons,
    List.dropWhile_cons_of_pos (p := fun c : UInt8 => decide (c ≠ 0x20)) hx']
  by_cases hc : c = 0x20
  · rw [if_pos hc,List.dropWhile_cons_of_neg (by simpa using hc),List.tail_cons]
  · rw [if_neg hc,words_word hc,List.length_cons]

theorem getLast?_cons_blank {c : UInt8} {xs : List UInt8} :
    (c :: xs).getLast? = some 0x20 ↔ xs.getLast? = some 0x20 ∨ c = 0x20 ∧ xs = [] := by
  cases xs with
  | nil => simp
  | cons x xs => simp [List.getLast?_cons_cons]

-- Where a line without quotes ends in a word, its tokens are its words; otherwise there is an empty
-- one more.
theorem tokenCount_words (hquote : 0x22 ∉ rest) : tokenCount .gap rest =
    (words 0x20 rest).length + if rest.getLast? = some 0x20 ∨ rest = [] then 1 else 0 := by
  have hboth : tokenCount .gap rest = (words 0x20 rest).length +
        (if rest.getLast? = some 0x20 ∨ rest = [] then 1 else 0) ∧
      ∀ x : UInt8, x ≠ 0x20 → tokenCount .word rest = (words 0x20 (x :: rest)).length +
        if rest.getLast? = some 0x20 then 1 else 0 := by
    induction rest with
    | nil =>
      refine ⟨by rw [words_nil]; rfl,fun x hx => ?_⟩
      rw [words_word hx,List.length_cons,List.dropWhile_cons_of_pos (by simpa using hx)]
      rfl
    | cons c cs ih =>
      obtain ⟨hgap,hword⟩ := ih fun h => hquote (List.mem_cons_of_mem c h)
      have hc : c ≠ 0x22 := fun h => hquote (h ▸ List.mem_cons_self)
      have hne : c :: cs ≠ [] := List.cons_ne_nil c cs
      by_cases hblank : c = 0x20
      · refine ⟨?_,fun x hx => ?_⟩
        · rw [tokenCount,if_pos hblank,hgap,hblank,words_separator]
          simp only [getLast?_cons_blank,true_and,List.cons_ne_nil,or_false]
        · rw [tokenCount,if_pos (.inl hblank),hgap,words_length_cons hx,if_pos hblank]
          simp only [getLast?_cons_blank,hblank,true_and]
          omega
      · refine ⟨?_,fun x hx => ?_⟩
        · rw [tokenCount,if_neg hblank,if_neg hc,hword c hblank]
          simp only [getLast?_cons_blank,hblank,false_and,or_false,List.cons_ne_nil]
        · rw [tokenCount,if_neg (not_or.mpr ⟨hblank,hc⟩),hword c hblank,words_length_cons hx,
            if_neg hblank]
          simp only [getLast?_cons_blank,hblank,false_and,or_false]
  exact hboth.1

end Words

section Lines

variable {m : Mem} {keys : List UInt8} {k : Nat}

theorem prompt_enters {p : Prompt} (hkeys : 0x0d ∈ keys) :
    ∃ p', p.readline 256 keys = some p' := by
  induction keys generalizing p with
  | nil => exact absurd hkeys List.not_mem_nil
  | cons c keys ih =>
    rw [Prompt.readline]
    by_cases hc : c = 0x0d
    · exact ⟨_,if_pos hc⟩
    · rw [if_neg hc]
      exact ih ((List.mem_cons.mp hkeys).resolve_left (Ne.symm hc))

theorem prompt_line (hkeys : 0x0d ∈ keys) :
    ∃ p, promptReadline m 256 keys = some p ∧ LineRest p.mem 0 (editedLine keys) := by
  obtain ⟨p,hp⟩ := prompt_enters (p := ⟨fun i => if i < 256 then 0 else m i,0⟩) hkeys
  have hline := promptReadline_line hp
  have hroom := hline.room
  have hzeros (i : Nat) (hi : 0 + (editedLine keys).length ≤ i) (hi' : i < 256) : p.mem i = 0 :=
    hline.zeros i (by omega) hi'
  refine ⟨p,hp,StrAt.of_slice hline.text (hzeros _ le_rfl (by omega)) hline.nonzero,by omega,hzeros⟩

theorem commandTokens_line {p : Prompt} (hp : promptReadline m 256 keys = some p) (n : Nat) :
    commandTokens m keys k n =
      (nextTokens ⟨p.mem,0,[]⟩ n k).bind fun r => inspectAll r.2 n r.1 := by
  unfold commandTokens
  rw [hp]
  rfl

theorem keepsToLine_of_room (hkeys : 0x0d ∈ keys)
    (hk : (editedLine keys).length + k ≤ 255 + tokenCount .gap (editedLine keys)) :
    KeepsToLine m keys k := by
  obtain ⟨p,hp,hline⟩ := prompt_line (m := m) hkeys
  obtain ⟨tokens,s,hcalls,htokens⟩ :=
    nextTokens_gives (s := ⟨p.mem,0,[]⟩) (k := k) hline (by dsimp only; omega)
  obtain ⟨s',hall,hin⟩ := inspectAll_gives htokens.texts
  have hnone : Inside ⟨p.mem,0,[]⟩ := fun a ha => absurd ha List.not_mem_nil
  refine ⟨tokenTexts k (editedLine keys),s',?_,hin (htokens.inside hnone),fun hquote => ?_⟩
  · obtain ⟨n,hn⟩ := hcalls.bind (g := fun n r => inspectAll r.2 n r.1) hall
    refine ⟨n,fun j hj => ?_⟩
    exact (commandTokens_line hp j).trans (hn j hj)
  · exact tokenTexts_words (fun hz => hline.string.nonzero 0 hz rfl) hquote k

theorem not_keepsToLine (hkeys : 0x0d ∈ keys)
    (hk : 255 + tokenCount .gap (editedLine keys) < (editedLine keys).length + k) :
    ¬ KeepsToLine m keys k := by
  rintro ⟨texts,s,⟨n,hn⟩,hin,-⟩
  obtain ⟨p,hp,hline⟩ := prompt_line (m := m) hkeys
  obtain ⟨n₀,hout⟩ := nextTokens_outside (s := ⟨p.mem,0,[]⟩) (k := k) hline (by dsimp only; omega)
  have hrun : commandTokens m keys k (max n n₀) = some (texts,s) := hn _ (le_max_left n n₀)
  rw [commandTokens_line hp] at hrun
  obtain ⟨r,hr,hall⟩ := Option.bind_eq_some_iff.mp hrun
  have hbehind := inspectAll_keeps (hout _ (le_max_right n n₀) r.1 r.2 hr) hall
  exact absurd (hin 256 hbehind) (by decide)

end Lines

-- The calls keep to the buffer as long as the last of them starts in it.
theorem prompt_tokens_in_line_iff {m : Mem} {keys : List UInt8} (hkeys : 0x0d ∈ keys) (k : Nat) :
    KeepsToLine m keys k ↔
      (editedLine keys).length + k ≤ 255 + tokenCount .gap (editedLine keys) := by
  refine ⟨fun h => ?_,keepsToLine_of_room hkeys⟩
  by_contra hk
  exact not_keepsToLine hkeys (Nat.lt_of_not_le hk) h

def copyKeys : List UInt8 := [0x63,0x70,0x20,0x61,0x20,0x62,0x0d]

theorem prompt_tokens_copy : KeepsToLine (fun _ => 0xff) copyKeys 3 :=
  (prompt_tokens_in_line_iff (by decide) 3).mpr (by decide)

-- Letters up to the end of the buffer.
def fullLine : List UInt8 := List.replicate 255 0x61 ++ [0x0d]

theorem editedLine_letters {n : Nat} (hn : n ≤ 255) :
    editedLine (List.replicate n 0x61 ++ [0x0d]) = List.replicate n 0x61 := by
  have hkeys : (List.replicate n (0x61 : UInt8) ++ [0x0d]).takeWhile (· ≠ 0x0d) =
      List.replicate n 0x61 := by
    rw [List.takeWhile_append_of_pos fun c hc => by rw [List.eq_of_mem_replicate hc]; decide]
    exact List.append_nil _
  rw [editedLine,hkeys]
  clear hkeys
  induction n with
  | zero => rfl
  | succ n ih =>
    have hroom : (List.replicate n (0x61 : UInt8)).length < 255 := by
      rw [List.length_replicate]
      omega
    rw [List.replicate_succ',List.foldl_append,ih (by omega)]
    change editKey (List.replicate n 0x61) 0x61 = _
    rw [editKey,if_neg (by decide),if_neg (by decide),if_pos ⟨hroom,by decide,by decide⟩]

theorem tokenCount_letters (n : Nat) : tokenCount .gap (List.replicate n 0x61) = 1 := by
  have hword (n : Nat) : tokenCount .word (List.replicate n 0x61) = 1 := by
    induction n with
    | zero => rfl
    | succ n ih => exact ih
  cases n with
  | zero => rfl
  | succ n => exact hword n

theorem prompt_tokens_full : ¬ KeepsToLine (fun _ => 0xff) fullLine 2 := by
  refine not_keepsToLine (List.mem_append_right _ (List.mem_singleton_self _)) ?_
  rw [fullLine,editedLine_letters le_rfl,tokenCount_letters,List.length_replicate]
  decide

end RoscoM68k
