import Mathlib.Data.Nat.Count
import RoscoM68k.Firmware.Easy68kTrap

namespace RoscoM68k
open Function M68k

section Stack

variable {m m' : M68k} {v : BitVec 32} {t : List (BitVec 16)}

-- A long on the stack.
def longWords (v : BitVec 32) : List (BitVec 16) := [v.extractLsb' 16 16,v.setWidth 16]

theorem long_join (v : BitVec 32) : v.extractLsb' 16 16 ++ v.setWidth 16 = v := by
  refine BitVec.eq_of_getLsbD_eq (fun i hi => ?_)
  rw [BitVec.getLsbD_append,BitVec.getLsbD_setWidth,BitVec.getLsbD_extractLsb']
  split
  · next h => rw [decide_eq_true h,Bool.true_and]
  · next h =>
    have hlt : i - 16 < 16 := by omega
    rw [decide_eq_true hlt,Bool.true_and,Nat.add_sub_cancel' (by omega)]

namespace M68k

theorem setL_reg (m : M68k) (r : Fin 15) (v : BitVec 32) : (m.setL r v).reg r = v :=
  update_self _ _ _

theorem setL_reg_ne (m : M68k) (v : BitVec 32) {r r' : Fin 15} (h : r' ≠ r) :
    (m.setL r v).reg r' = m.reg r' := update_of_ne h _ _

theorem pushL_input (m : M68k) (v : BitVec 32) : (m.pushL v).input = m.input := rfl

theorem pushL_ssp (m : M68k) (v : BitVec 32) : (m.pushL v).ssp = longWords v ++ m.ssp := rfl

theorem popW_eq {w : BitVec 16} (h : m.ssp = w :: t) :
    m.popW = some (w,{ m with ssp := t }) := by
  rw [popW,h]

theorem popL_eq (h : m.ssp = longWords v ++ t) : m.popL = some (v,{ m with ssp := t }) := by
  have hh := popW_eq (t := v.setWidth 16 :: t) h
  have hl := popW_eq (m := { m with ssp := v.setWidth 16 :: t }) rfl
  simp only [popL,hh,hl,Option.bind_eq_bind,Option.bind_some,long_join]

theorem popTo_eq (r : Fin 15) (h : m.ssp = longWords v ++ t) :
    m.popTo r = some (setL { m with ssp := t } r v) := by
  rw [popTo,popL_eq h]
  rfl

theorem bsr_eq {ret : BitVec 32} {f : M68k → Option M68k} (h : f (m.pushL ret) = some m')
    (hs : m'.ssp = longWords ret ++ m.ssp) :
    m.bsr ret f = some { m' with ssp := m.ssp } := by
  rw [bsr,h,Option.bind_eq_bind,Option.bind_some,popL_eq hs]
  simp

end M68k
end Stack

-- What is done to the stacks is undone.
structure Same (m m' : M68k) : Prop where
  usp : m'.usp = m.usp
  ssp : m'.ssp = m.ssp

theorem Same.trans {m m' m'' : M68k} (h : Same m m') (h' : Same m' m'') : Same m m'' :=
  ⟨h'.usp.trans h.usp,h'.ssp.trans h.ssp⟩

-- Nothing is read, either, and all registers but some are kept.
structure Keeps (mods : List (Fin 15)) (m m' : M68k) : Prop extends Same m m' where
  reg : ∀ r ∉ mods, m'.reg r = m.reg r
  input : m'.input = m.input

section Firmware

variable {m : M68k} (C : Easy68kConsole) (I : Easy68kImage)

namespace Easy68k

theorem fw_stack (efp : Nat) {run : M68k → M68k} (husp : ∀ m, (run m).usp = m.usp)
    (hssp : ∀ m, (run m).ssp = m.ssp) (m : M68k) : ∃ m1 m', fw efp run m = some m' ∧ Same m m' ∧
      m1.input = m.input ∧ (∀ r ≠ a1, m1.reg r = m.reg r) ∧
      m' = setL { run m1 with ssp := m.ssp } a1 (m.reg a1) := by
  obtain ⟨m1,h1⟩ : ∃ m1, m1 = (m.pushL (m.reg a1)).setL a1
      (BitVec.ofNat 32 ((m.pushL (m.reg a1)).mem.readL efp)) := ⟨_,rfl⟩
  have hs : (run m1).ssp = longWords (m.reg a1) ++ m.ssp := by
    rw [hssp,h1]
    rfl
  refine ⟨m1,setL { run m1 with ssp := m.ssp } a1 (m.reg a1),?_,⟨?_,rfl⟩,?_,fun r hr => ?_,rfl⟩
  · rw [fw,← h1]
    exact popTo_eq a1 hs
  · change (run m1).usp = m.usp
    rw [husp,h1]
    rfl
  · rw [h1]
    rfl
  · rw [h1]
    exact update_of_ne hr _ _

theorem fw_keeps (efp : Nat) {mods : List (Fin 15)} (R : EfpRoutine mods) (m : M68k) :
    ∃ m', fw efp R.run m = some m' ∧ Keeps mods m m' := by
  obtain ⟨m1,m',he,hs,hi,hr,h'⟩ := fw_stack efp R.usp R.ssp m
  refine ⟨m',he,hs,fun r hm => ?_,?_⟩
  · rw [h']
    by_cases hra : r = a1
    · rw [hra]
      exact setL_reg _ _ _
    · exact (setL_reg_ne _ _ hra).trans ((R.reg m1 r hm).trans (hr r hra))
  · rw [h']
    exact (R.input m1).trans hi

theorem recvchar_spec (m : M68k) : ∃ m', FW_RECVCHAR C m = some m' ∧ Same m m' ∧
    (∀ r ≠ d0, m'.reg r = m.reg r) ∧ m'.byte d0 = m.input 0 ∧
      m'.input = fun n => m.input (n + 1) := by
  obtain ⟨m1,m',he,hs,hi,hr,h'⟩ := fw_stack EFP_RECVCHAR C.recvchar.usp C.recvchar.ssp m
  refine ⟨m',he,hs,fun r hm => ?_,?_,?_⟩
  · rw [h']
    by_cases hra : r = a1
    · rw [hra]
      exact setL_reg _ _ _
    · exact (setL_reg_ne _ _ hra).trans ((C.recvchar.reg m1 r hm).trans (hr r hra))
  · have hb : m'.byte d0 = (C.recvchar.run m1).byte d0 := by
      rw [h']
      exact congrArg (BitVec.setWidth 8) (setL_reg_ne _ _ (by decide))
    rw [hb,C.recvchar.char,hi]
  · rw [h']
    exact (C.recvchar.input m1).trans (by rw [hi])

theorem callC_stack {k : Nat} (f : CFunction k) {args st : List (BitVec 16)}
    (h : m.ssp = args ++ st) (hk : args.length = 2 * k) :
    (callC f m).usp = m.usp ∧ (callC f m).ssp = st := by
  refine ⟨f.usp m,(f.ssp m).trans ?_⟩
  rw [h,← hk,List.drop_left]

theorem echo_keeps (m : M68k) : ∃ m', echo C m = some m' ∧ Keeps [a1] m m' := by
  rw [echo]
  split
  · exact ⟨m,rfl,⟨rfl,rfl⟩,fun _ _ => rfl,rfl⟩
  · exact fw_keeps EFP_PRINTCHAR C.printchar m

theorem newline_same (m : M68k) : ∃ m', newline C I m = some m' ∧ Same m m' := by
  obtain ⟨m1,h1⟩ : ∃ m1, m1 = m.setB d2 (m.readB I.lfDisplay) := ⟨_,rfl⟩
  have hs1 : Same m m1 := h1 ▸ ⟨rfl,rfl⟩
  rw [newline,← h1]
  split
  · exact ⟨m1,rfl,hs1⟩
  · obtain ⟨m2,h2,k2⟩ := fw_keeps EFP_PRINTCHAR C.printchar (m1.setB d0 0x0d)
    obtain ⟨m3,h3,k3⟩ := fw_keeps EFP_PRINTCHAR C.printchar (m2.setB d0 0x0a)
    have hs2 : Same m1 m2 := ⟨k2.usp,k2.ssp⟩
    have hs3 : Same m2 m3 := ⟨k3.usp,k3.ssp⟩
    refine ⟨m3,?_,hs1.trans (hs2.trans hs3)⟩
    simp only [FW_PRINTCHAR,h2,Option.bind_eq_bind,Option.bind_some]
    exact h3

theorem prompt_same (text : BitVec 32) (m : M68k) :
    ∃ m', prompt C I text m = some m' ∧ Same m m' ∧ m'.input = m.input := by
  obtain ⟨m1,h1⟩ : ∃ m1, m1 = m.setB d2 (m.readB I.promptOn) := ⟨_,rfl⟩
  have hs1 : Same m m1 := h1 ▸ ⟨rfl,rfl⟩
  have hi1 : m1.input = m.input := h1 ▸ rfl
  rw [prompt,← h1]
  split
  · exact ⟨m1,rfl,hs1,hi1⟩
  · obtain ⟨m2,h2,k2⟩ := fw_keeps EFP_PRINT C.print (m1.setL a0 text)
    have hs2 : Same m1 m2 := ⟨k2.usp,k2.ssp⟩
    exact ⟨m2,h2,hs1.trans hs2,k2.input.trans hi1⟩

end Easy68k
end Firmware

section Loops

variable {m m' : M68k} {r : Fin 15} {body : M68k → Option (LoopLabel × M68k)}

namespace M68k

theorem word_setW (m : M68k) (r : Fin 15) (v : BitVec 16) : (m.setW r v).word r = v := by
  rw [word,setW,setL_reg]
  exact BitVec.setWidth_append_eq_right

theorem dbra_zero (h : m.word r = 0) : m.dbra r = (.done,m.setW r 0xffff) := by
  rw [dbra,h]
  exact if_pos (word_setW _ _ _)

theorem dbra_succ {k : Nat} (h : (m.word r).toNat = k + 1) :
    ∃ m', m.dbra r = (.body,m') ∧ Same m m' ∧ m'.input = m.input ∧ (m'.word r).toNat = k := by
  have hlt := (m.word r).isLt
  have hk : (m.word r - 1).toNat = k := by
    rw [BitVec.toNat_sub,h]
    change (65536 - 1 + (k + 1)) % 65536 = k
    omega
  refine ⟨m.setW r (m.word r - 1),?_,⟨rfl,rfl⟩,rfl,?_⟩
  · refine if_neg (fun he => ?_)
    rw [word_setW] at he
    rw [he] at hk
    have hk : 65535 = k := hk
    omega
  · rw [word_setW]
    exact hk

end M68k

theorem runLoop_same {fuel : Nat} {l : LoopLabel}
    (hbody : ∀ m l m', body m = some (l,m') → Same m m')
    (h : runLoop r body fuel l m = some m') : Same m m' := by
  induction fuel generalizing l m with
  | zero =>
    cases l with
    | done => exact Option.some.inj h ▸ ⟨rfl,rfl⟩
    | body => nomatch h
    | dbra => nomatch h
  | succ fuel ih =>
    cases l with
    | done => exact Option.some.inj h ▸ ⟨rfl,rfl⟩
    | body =>
      obtain ⟨⟨l,m1⟩,hb,hr⟩ := Option.bind_eq_some_iff.mp h
      exact (hbody _ _ _ hb).trans (ih hr)
    | dbra =>
      have hd : Same m (m.dbra r).2 := by
        unfold dbra
        dsimp only
        split <;> exact ⟨rfl,rfl⟩
      exact hd.trans (ih h)

-- A body that comes back to the dbra with the count as it was makes at most that many rounds.
theorem runLoop_counted (hbody : ∀ m, ∃ l m', body m = some (l,m') ∧
      (l = .done ∨ l = .dbra ∧ m'.word r = m.word r)) (m : M68k) :
    ∃ fuel m', runLoop r body fuel .dbra m = some m' := by
  obtain ⟨k,hk⟩ : ∃ k, (m.word r).toNat = k := ⟨_,rfl⟩
  induction k generalizing m with
  | zero =>
    refine ⟨1,m.setW r 0xffff,?_⟩
    rw [runLoop,dbra_zero (BitVec.eq_of_toNat_eq hk)]
    rfl
  | succ k ih =>
    obtain ⟨m1,h1,_,_,hk1⟩ := dbra_succ hk
    obtain ⟨l,m2,h2,rfl | ⟨rfl,hw⟩⟩ := hbody m1
    · refine ⟨2,m2,?_⟩
      simp only [runLoop,h1,h2,Option.bind_eq_bind,Option.bind_some]
    · obtain ⟨fuel,m',hr⟩ := ih m2 (hw ▸ hk1)
      refine ⟨fuel + 2,m',?_⟩
      simp only [runLoop,h1,h2,Option.bind_eq_bind,Option.bind_some]
      exact hr

end Loops

section Number

variable {m m' : M68k} (C : Easy68kConsole) (I : Easy68kImage)

def IsDigit (c : BitVec 8) : Prop := 0x30 ≤ c ∧ c ≤ 0x39

instance : DecidablePred IsDigit := fun _ => inferInstanceAs (Decidable (_ ∧ _))

-- What comes in has a CR in it, or k digits.
def NumberEnds (k : Nat) (input : Nat → BitVec 8) : Prop :=
  ∃ n, input n = 0x0d ∨ k ≤ Nat.count (fun i => IsDigit (input i)) n

namespace Easy68k

theorem addDigit_word (m : M68k) : (addDigit m).word d3 = m.word d3 := by
  simp only [addDigit,word,setL_reg_ne _ _ (show d3 ≠ d0 by decide),
    setL_reg_ne _ _ (show d3 ≠ d1 by decide),setL_reg_ne _ _ (show d3 ≠ d2 by decide)]

theorem readlnNumBody_spec (m : M68k) : ∃ l m', readlnNumBody C I m = some (l,m') ∧ Same m m' ∧
    (m'.input = fun n => m.input (n + 1)) ∧ m'.word d3 = m.word d3 ∧
    (m.input 0 = 0x0d ∧ l = .done ∨ m.input 0 ≠ 0x0d ∧ IsDigit (m.input 0) ∧ l = .dbra ∨
      m.input 0 ≠ 0x0d ∧ ¬ IsDigit (m.input 0) ∧ l = .body) := by
  obtain ⟨m1,h1⟩ : ∃ m1, m1 = m.setB d2 (m.readB I.echoOn) := ⟨_,rfl⟩
  obtain ⟨m2,h2,k2,r2,b2,i2⟩ := recvchar_spec C m1
  have hs2 : Same m m2 := by
    rw [h1] at k2
    exact ⟨k2.usp,k2.ssp⟩
  have hi2 : m2.input = fun n => m.input (n + 1) := by
    rw [i2,h1]
    rfl
  have hb2 : m2.byte d0 = m.input 0 := by
    rw [b2,h1]
    rfl
  have hw2 : m2.word d3 = m.word d3 := by
    rw [word,r2 d3 (by decide),h1]
    exact congrArg (BitVec.setWidth 16) (setL_reg_ne _ _ (by decide))
  simp only [readlnNumBody,← h1,h2,hb2,Option.bind_eq_bind,Option.bind_some]
  by_cases hcr : m.input 0 = 0x0d
  · rw [if_pos hcr]
    exact ⟨.done,m2,rfl,hs2,hi2,hw2,Or.inl ⟨hcr,rfl⟩⟩
  · rw [if_neg hcr]
    by_cases hlo : m.input 0 < 0x30
    · rw [if_pos hlo]
      have hno : ¬ IsDigit (m.input 0) := fun hd => absurd hd.1 (BitVec.not_le.mpr hlo)
      exact ⟨.body,m2,rfl,hs2,hi2,hw2,Or.inr (Or.inr ⟨hcr,hno,rfl⟩)⟩
    · rw [if_neg hlo]
      by_cases hhi : 0x39 < m.input 0
      · rw [if_pos hhi]
        have hno : ¬ IsDigit (m.input 0) := fun hd => absurd hd.2 (BitVec.not_le.mpr hhi)
        exact ⟨.body,m2,rfl,hs2,hi2,hw2,Or.inr (Or.inr ⟨hcr,hno,rfl⟩)⟩
      · rw [if_neg hhi]
        have hyes : IsDigit (m.input 0) := ⟨BitVec.not_lt.mp hlo,BitVec.not_lt.mp hhi⟩
        obtain ⟨m3,h3,k3⟩ := echo_keeps C m2
        rw [h3,Option.bind_some]
        have hw3 : m3.word d3 = m2.word d3 :=
          congrArg (BitVec.setWidth 16) (k3.reg d3 (by decide))
        refine ⟨.dbra,_,rfl,⟨k3.usp.trans hs2.usp,k3.ssp.trans hs2.ssp⟩,k3.input.trans hi2,?_,
          Or.inr (Or.inl ⟨hcr,hyes,rfl⟩)⟩
        exact (addDigit_word m3).trans (hw3.trans hw2)

theorem count_tail (p : Nat → Prop) [DecidablePred p] (n : Nat) :
    Nat.count p (n + 1) = Nat.count (fun i => p (i + 1)) n + if p 0 then 1 else 0 :=
  Nat.count_succ' p n

-- From the body on, one digit more is wanted than the count says.
theorem number_ends {fuel : Nat} : ∀ {l : LoopLabel} {m : M68k},
    runLoop d3 (readlnNumBody C I) fuel l m = some m' →
      (l = .dbra → NumberEnds (m.word d3).toNat m.input) ∧
      (l = .body → NumberEnds ((m.word d3).toNat + 1) m.input) := by
  induction fuel with
  | zero =>
    intro l m h
    cases l with
    | done => exact ⟨nofun,nofun⟩
    | body => nomatch h
    | dbra => nomatch h
  | succ fuel ih =>
    intro l m h
    cases l with
    | done => exact ⟨nofun,nofun⟩
    | dbra =>
      refine ⟨fun _ => ?_,nofun⟩
      rcases hk : (m.word d3).toNat with _ | k
      · exact ⟨0,Or.inr (Nat.zero_le _)⟩
      · obtain ⟨m1,h1,_,i1,w1⟩ := dbra_succ hk
        simp only [runLoop,h1] at h
        have hend := (ih h).2 rfl
        rwa [w1,i1] at hend
    | body =>
      refine ⟨nofun,fun _ => ?_⟩
      obtain ⟨⟨l,m1⟩,hb,hr⟩ := Option.bind_eq_some_iff.mp h
      obtain ⟨l',m1',hb',_,i1,w1,hl⟩ := readlnNumBody_spec C I m
      obtain ⟨rfl,rfl⟩ := Prod.mk.inj (Option.some.inj (hb.symm.trans hb'))
      rcases hl with ⟨hcr,rfl⟩ | ⟨hcr,hd,rfl⟩ | ⟨hcr,hd,rfl⟩
      · exact ⟨0,Or.inl hcr⟩
      · obtain ⟨n,hn⟩ := (ih hr).1 rfl
        rw [w1,i1] at hn
        refine ⟨n + 1,hn.imp id (fun hn => ?_)⟩
        rw [count_tail,if_pos hd]
        exact Nat.succ_le_succ hn
      · obtain ⟨n,hn⟩ := (ih hr).2 rfl
        rw [w1,i1] at hn
        refine ⟨n + 1,hn.imp id (fun hn => ?_)⟩
        rwa [count_tail,if_neg hd]

theorem number_body (n : Nat) : ∀ {m : M68k}, (m.input n = 0x0d ∨
    (m.word d3).toNat + 1 ≤ Nat.count (fun i => IsDigit (m.input i)) n) →
      ∃ fuel m', runLoop d3 (readlnNumBody C I) fuel .body m = some m' := by
  have hdone {m m1 : M68k} (h : readlnNumBody C I m = some (.done,m1)) :
      ∃ fuel m', runLoop d3 (readlnNumBody C I) fuel .body m = some m' :=
    ⟨1,m1,by simp only [runLoop,h,Option.bind_eq_bind,Option.bind_some]⟩
  induction n with
  | zero =>
    intro m h
    obtain ⟨l,m1,hb,_,_,_,hl⟩ := readlnNumBody_spec C I m
    have hcr : m.input 0 = 0x0d := h.resolve_right (by simp)
    rcases hl with ⟨_,rfl⟩ | ⟨hne,_⟩ | ⟨hne,_⟩
    · exact hdone hb
    · exact absurd hcr hne
    · exact absurd hcr hne
  | succ n ih =>
    intro m h
    obtain ⟨l,m1,hb,_,i1,w1,hl⟩ := readlnNumBody_spec C I m
    rw [count_tail] at h
    rcases hl with ⟨_,rfl⟩ | ⟨_,hd,rfl⟩ | ⟨_,hd,rfl⟩
    · exact hdone hb
    · rw [if_pos hd] at h
      rcases hk : (m.word d3).toNat with _ | k
      · refine ⟨2,m1.setW d3 0xffff,?_⟩
        have hz : m1.word d3 = 0 := w1.trans (BitVec.eq_of_toNat_eq hk)
        simp only [runLoop,hb,dbra_zero hz,Option.bind_eq_bind,Option.bind_some]
      · obtain ⟨m2,h2,_,i2,w2⟩ := dbra_succ (w1 ▸ hk)
        rw [hk] at h
        obtain ⟨fuel,m',hr⟩ := ih (m := m2) (by
          rw [i2,i1,w2]
          exact h.imp id Nat.le_of_succ_le_succ)
        refine ⟨fuel + 2,m',?_⟩
        simp only [runLoop,hb,h2,Option.bind_eq_bind,Option.bind_some]
        exact hr
    · rw [if_neg hd] at h
      obtain ⟨fuel,m',hr⟩ := ih (m := m1) (by rw [i1,w1]; exact h)
      refine ⟨fuel + 1,m',?_⟩
      simp only [runLoop,hb,Option.bind_eq_bind,Option.bind_some]
      exact hr

theorem number_run : (∃ fuel m', runLoop d3 (readlnNumBody C I) fuel .dbra m = some m') ↔
    NumberEnds (m.word d3).toNat m.input := by
  constructor
  · rintro ⟨fuel,m',h⟩
    exact (number_ends C I h).1 rfl
  · rintro ⟨n,hn⟩
    rcases hk : (m.word d3).toNat with _ | k
    · refine ⟨1,m.setW d3 0xffff,?_⟩
      have hz : m.word d3 = 0 := BitVec.eq_of_toNat_eq hk
      simp only [runLoop,dbra_zero hz]
    · obtain ⟨m1,h1,_,i1,w1⟩ := dbra_succ hk
      obtain ⟨fuel,m',hr⟩ := number_body C I n (m := m1) (by
        rw [i1,w1,← hk]
        exact hn)
      refine ⟨fuel + 1,m',?_⟩
      simp only [runLoop,h1]
      exact hr

end Easy68k
end Number

end RoscoM68k
