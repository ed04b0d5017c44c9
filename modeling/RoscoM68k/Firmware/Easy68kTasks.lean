import RoscoM68k.Firmware.Easy68kReturns

namespace RoscoM68k
open Function M68k

-- The frame of the trap.
def trapFrame (cpu : Cpu) (sr : BitVec 16) (pc : BitVec 32) : List (BitVec 16) :=
  sr :: longWords pc ++
    match cpu with
    | .m68000 => []
    | .m68010 => [Easy68k.TRAP_15_VECTOR_ADDR]

-- What a handler comes back with.
structure Left (n : BitVec 32) (sr : BitVec 16) (pc : BitVec 32) (usp ssp : List (BitVec 16))
    (m : M68k) : Prop where
  d0 : m.reg d0 = n
  sr : m.sr = sr
  pc : m.pc = pc
  usp : m.usp = usp
  ssp : m.ssp = ssp

section Handlers

variable {m m' : M68k} {cpu : Cpu} {n pc : BitVec 32} {sr : BitVec 16} {rest : List (BitVec 16)}
  {usp : List (BitVec 16)} (C : Easy68kConsole) (I : Easy68kImage)

theorem M68k.rte_eq (h : m.ssp = trapFrame cpu sr pc ++ rest) :
    m.rte cpu = some { m with ssp := rest, sr := sr, pc := pc } := by
  cases cpu with
  | m68000 =>
    have hw := popW_eq (t := longWords pc ++ rest) h
    have hl := popL_eq (m := { m with ssp := longWords pc ++ rest }) rfl
    simp only [rte,hw,hl,dropFormat,Option.bind_eq_bind,Option.bind_some]
  | m68010 =>
    have hw := popW_eq (t := longWords pc ++ Easy68k.TRAP_15_VECTOR_ADDR :: rest) h
    have hl := popL_eq
      (m := { m with ssp := longWords pc ++ Easy68k.TRAP_15_VECTOR_ADDR :: rest }) rfl
    have hf := popW_eq (m := { m with ssp := Easy68k.TRAP_15_VECTOR_ADDR :: rest }) rfl
    have hz : Easy68k.TRAP_15_VECTOR_ADDR.extractLsb' 12 4 = 0 := by decide
    simp only [rte,hw,hl,hf,dropFormat,Option.bind_eq_bind,Option.bind_some,hz,if_true]

theorem M68k.bsr_same {ret : BitVec 32} {f : M68k → Option M68k}
    (h : f (m.pushL ret) = some m') (hs : Same (m.pushL ret) m') :
    ∃ m', m.bsr ret f = some m' ∧ Same m m' :=
  ⟨_,bsr_eq h hs.ssp,hs.usp,rfl⟩

namespace Easy68k

theorem epilogue_spec (h : m.ssp = longWords n ++ (trapFrame cpu sr pc ++ rest)) :
    ∃ m', epilogue cpu m = some m' ∧ Left n sr pc m.usp rest m' := by
  obtain ⟨m1,h1⟩ : ∃ m1, m1 = setL { m with ssp := trapFrame cpu sr pc ++ rest } d0 n := ⟨_,rfl⟩
  have hs : m1.ssp = trapFrame cpu sr pc ++ rest := h1 ▸ rfl
  have hn : m1.reg d0 = n := h1 ▸ setL_reg _ _ _
  have hu : m1.usp = m.usp := h1 ▸ rfl
  refine ⟨{ m1 with ssp := rest, sr := sr, pc := pc },?_,hn,rfl,rfl,hu,rfl⟩
  rw [epilogue,popTo_eq d0 h,← h1]
  exact rte_eq hs

-- The two epilogues do the same.
theorem epilogue2_eq : epilogue2 = epilogue := rfl

theorem epilogue_same {m k : M68k} (hs : Same m k)
    (h : m.ssp = longWords n ++ (trapFrame cpu sr pc ++ rest)) :
    ∃ m'', epilogue cpu k = some m'' ∧ Left n sr pc m.usp rest m'' := by
  obtain ⟨m'',he,hl⟩ := epilogue_spec (hs.ssp.trans h)
  exact ⟨m'',he,hs.usp ▸ hl⟩

theorem printLenBody_spec (m : M68k) : ∃ l m', printLenBody C m = some (l,m') ∧
    (l = .done ∨ l = .dbra ∧ m'.word d1 = m.word d1) ∧ Same m m' := by
  obtain ⟨m1,h1⟩ : ∃ m1, m1 = m.setB d0 (m.readB (m.reg a1).toNat) := ⟨_,rfl⟩
  obtain ⟨m2,h2,k2⟩ := fw_keeps EFP_PRINTCHAR C.printchar (m1.setL a1 (m1.reg a1 + 1))
  refine ⟨.dbra,m2,?_,Or.inr ⟨rfl,?_⟩,?_⟩
  · simp only [printLenBody,← h1,FW_PRINTCHAR,h2,Option.bind_eq_bind,Option.bind_some]
  · rw [word,k2.reg d1 (by decide),setL_reg_ne _ _ (by decide),h1]
    exact congrArg (BitVec.setWidth 16) (setL_reg_ne _ _ (by decide))
  · rw [h1] at k2
    exact ⟨k2.usp,k2.ssp⟩

-- A body with a specification like this one does what it does to the stack once.
theorem runLoop_leaves {r : Fin 15} {body : M68k → Option (LoopLabel × M68k)}
    (hbody : ∀ m, ∃ l m', body m = some (l,m') ∧
      (l = .done ∨ l = .dbra ∧ m'.word r = m.word r) ∧ Same m m') (m : M68k) :
    ∃ fuel m', runLoop r body fuel .dbra m = some m' ∧ Same m m' := by
  obtain ⟨fuel,m',h⟩ := runLoop_counted
    (fun m => (hbody m).imp (fun l => Exists.imp (fun m' h => ⟨h.1,h.2.1⟩))) m
  refine ⟨fuel,m',h,runLoop_same (fun m l m' h => ?_) h⟩
  obtain ⟨l',m1,h1,_,hs⟩ := hbody m
  obtain ⟨rfl,rfl⟩ := Prod.mk.inj (Option.some.inj (h.symm.trans h1))
  exact hs

theorem printLen_leaves (h : m.ssp = longWords n ++ (trapFrame cpu sr pc ++ rest)) :
    ∃ fuel m', printLen C I cpu fuel m = some m' ∧ Left n sr pc m.usp rest m' := by
  obtain ⟨fuel,m1,h1,s1⟩ := runLoop_leaves (printLenBody_spec C) (m.pushL (I.back .printLen))
  obtain ⟨m2,h2,s2⟩ := bsr_same (f := printLenImpl C fuel) h1 s1
  obtain ⟨m3,h3,l3⟩ := epilogue_same s2 h
  refine ⟨fuel,m3,?_,l3⟩
  simp only [printLen,h2,Option.bind_eq_bind,Option.bind_some]
  exact h3

theorem printlnLen_leaves (h : m.ssp = longWords n ++ (trapFrame cpu sr pc ++ rest)) :
    ∃ fuel m', printlnLen C I cpu fuel m = some m' ∧ Left n sr pc m.usp rest m' := by
  obtain ⟨fuel,m1,h1,s1⟩ := runLoop_leaves (printLenBody_spec C) (m.pushL (I.back .printlnLen))
  obtain ⟨m2,h2,s2⟩ := bsr_same (f := printLenImpl C fuel) h1 s1
  obtain ⟨m3,h3,k3⟩ := fw_keeps EFP_PRINT C.print (m2.setL a0 I.szCrlf)
  obtain ⟨m4,h4,l4⟩ := epilogue_same (s2.trans ⟨k3.usp,k3.ssp⟩) h
  refine ⟨fuel,m4,?_,l4⟩
  simp only [printlnLen,h2,FW_PRINT,h3,Option.bind_eq_bind,Option.bind_some]
  exact h4

theorem readlnStrBody_spec (m : M68k) : ∃ l m', readlnStrBody C m = some (l,m') ∧
    (l = .done ∨ l = .dbra ∧ m'.word d1 = m.word d1) ∧ Same m m' := by
  obtain ⟨m1,h1,s1,r1,_,_⟩ := recvchar_spec C m
  have hw1 : m1.word d1 = m.word d1 := congrArg (BitVec.setWidth 16) (r1 d1 (by decide))
  simp only [readlnStrBody,h1,Option.bind_eq_bind,Option.bind_some]
  split
  · exact ⟨.done,m1,rfl,Or.inl rfl,s1⟩
  · obtain ⟨m2,h2⟩ : ∃ m2, m2 = storeA1 m1 (m1.byte d0) := ⟨_,rfl⟩
    obtain ⟨m3,h3,k3⟩ := echo_keeps C m2
    have hw2 : m2.word d1 = m1.word d1 := by
      rw [h2]
      exact congrArg (BitVec.setWidth 16) (setL_reg_ne _ _ (by decide))
    have hw3 : m3.word d1 = m2.word d1 := congrArg (BitVec.setWidth 16) (k3.reg d1 (by decide))
    have hs2 : Same m1 m2 := h2 ▸ ⟨rfl,rfl⟩
    rw [← h2,h3]
    exact ⟨.dbra,m3,rfl,Or.inr ⟨rfl,hw3.trans (hw2.trans hw1)⟩,
      s1.trans (hs2.trans ⟨k3.usp,k3.ssp⟩)⟩

theorem readlnStr_leaves (h : m.ssp = longWords n ++ (trapFrame cpu sr pc ++ rest)) :
    ∃ fuel m', readlnStr C I cpu fuel m = some m' ∧ Left n sr pc m.usp rest m' := by
  obtain ⟨m1,h1⟩ : ∃ m1, m1 = (m.pushL (m.reg a1)).pushL ((m.pushL (m.reg a1)).reg d2) := ⟨_,rfl⟩
  obtain ⟨m2,h2,s2,_⟩ := prompt_same C I I.readlnPrompt m1
  obtain ⟨m3,h3⟩ : ∃ m3, m3 = (m2.setB d2 (m2.readB I.echoOn)).setW d1 80 := ⟨_,rfl⟩
  obtain ⟨fuel,m4,h4,s4⟩ := runLoop_leaves (readlnStrBody_spec C) m3
  obtain ⟨m5,h5,s5⟩ := newline_same C I (storeA1 m4 0)
  have hs : (lineLength m5).ssp = longWords (m.reg d2) ++ (longWords (m.reg a1) ++ m.ssp) := by
    refine s5.ssp.trans (s4.ssp.trans ?_)
    rw [h3]
    refine s2.ssp.trans ?_
    rw [h1]
    rfl
  have hu : (lineLength m5).usp = m.usp := by
    refine s5.usp.trans (s4.usp.trans ?_)
    rw [h3]
    refine s2.usp.trans ?_
    rw [h1]
    rfl
  obtain ⟨m6,h6⟩ : ∃ m6, m6 = setL { lineLength m5 with ssp := longWords (m.reg a1) ++ m.ssp } d2
      (m.reg d2) := ⟨_,rfl⟩
  have hs6 : m6.ssp = longWords (m.reg a1) ++ m.ssp := h6 ▸ rfl
  obtain ⟨m7,h7⟩ : ∃ m7, m7 = setL { m6 with ssp := m.ssp } a1 (m.reg a1) := ⟨_,rfl⟩
  have s7 : Same m m7 := by
    rw [h7,h6]
    exact ⟨hu,rfl⟩
  obtain ⟨m8,h8,l8⟩ := epilogue_same s7 h
  refine ⟨fuel,m8,?_,l8⟩
  simp only [readlnStr,← h1,h2,← h3,h4,h5,popTo_eq d2 hs,← h6,popTo_eq a1 hs6,← h7,
    Option.bind_eq_bind,Option.bind_some]
  exact h8

theorem callC_leaves {k : Nat} (f : CFunction k) (args : List (BitVec 16)) {m1 : M68k}
    (hm : m1.usp = m.usp ∧ m1.ssp = args ++ m.ssp) (hk : args.length = 2 * k)
    (h : m.ssp = longWords n ++ (trapFrame cpu sr pc ++ rest)) :
    ∃ m', epilogue cpu (callC f m1) = some m' ∧ Left n sr pc m.usp rest m' := by
  obtain ⟨hu,hs⟩ := callC_stack f hm.2 hk
  exact epilogue_same ⟨hu.trans hm.1,hs⟩ h

theorem displaynumSigned_leaves (h : m.ssp = longWords n ++ (trapFrame cpu sr pc ++ rest)) :
    ∃ m', displaynumSigned C cpu m = some m' ∧ Left n sr pc m.usp rest m' :=
  callC_leaves C.printSigned (longWords (m.reg d1)) ⟨rfl,rfl⟩ rfl h

theorem displaynumUnsigned_leaves (h : m.ssp = longWords n ++ (trapFrame cpu sr pc ++ rest)) :
    ∃ m', displaynumUnsigned C cpu m = some m' ∧ Left n sr pc m.usp rest m' :=
  callC_leaves C.printUnsigned (longWords (m.reg d1) ++ longWords (m.reg d2)) ⟨rfl,rfl⟩ rfl h

theorem displaynumSignedWidth_leaves
    (h : m.ssp = longWords n ++ (trapFrame cpu sr pc ++ rest)) :
    ∃ m', displaynumSignedWidth C cpu m = some m' ∧ Left n sr pc m.usp rest m' :=
  callC_leaves C.printSignedWidth (longWords (m.reg d1) ++ longWords (m.reg d2)) ⟨rfl,rfl⟩ rfl h

theorem readChar_leaves (h : m.ssp = longWords n ++ (trapFrame cpu sr pc ++ rest)) :
    ∃ m', readChar C cpu m = some m' ∧ Left n sr pc m.usp rest m' := by
  obtain ⟨m1,h1,s1,_⟩ := recvchar_spec C m
  obtain ⟨m2,h2,l2⟩ := epilogue_same (k := m1.setL d1 (m1.reg d0)) ⟨s1.usp,s1.ssp⟩ h
  refine ⟨m2,?_,l2⟩
  simp only [readChar,h1,Option.bind_eq_bind,Option.bind_some]
  exact h2

theorem sendChar_leaves (h : m.ssp = longWords n ++ (trapFrame cpu sr pc ++ rest)) :
    ∃ m', sendChar C cpu m = some m' ∧ Left n sr pc m.usp rest m' := by
  obtain ⟨m1,h1,k1⟩ := fw_keeps EFP_PRINTCHAR C.printchar (m.setL d0 (m.reg d1))
  obtain ⟨m2,h2,l2⟩ := epilogue_same (k := m1) ⟨k1.usp,k1.ssp⟩ h
  refine ⟨m2,?_,l2⟩
  simp only [sendChar,FW_PRINTCHAR,h1,Option.bind_eq_bind,Option.bind_some]
  exact h2

theorem checkRecv_leaves (h : m.ssp = longWords n ++ (trapFrame cpu sr pc ++ rest)) :
    ∃ m', checkRecv I cpu m = some m' ∧ Left n sr pc m.usp rest m' := by
  rw [checkRecv,epilogue2_eq]
  split
  · exact epilogue_same ⟨rfl,rfl⟩ h
  · dsimp only
    split
    · exact epilogue_same ⟨rfl,rfl⟩ h
    · exact epilogue_same ⟨rfl,rfl⟩ h

theorem getTicks_leaves (h : m.ssp = longWords n ++ (trapFrame cpu sr pc ++ rest)) :
    ∃ m', getTicks cpu m = some m' ∧ Left n sr pc m.usp rest m' :=
  epilogue_same ⟨rfl,rfl⟩ h

theorem moveXY_leaves (h : m.ssp = longWords n ++ (trapFrame cpu sr pc ++ rest)) :
    ∃ m', moveXY C cpu m = some m' ∧ Left n sr pc m.usp rest m' := by
  obtain ⟨m1,h1,s1⟩ : ∃ m1, (if m.word d1 = 0xff00 then FW_CLRSCR C m else FW_MOVEXY C m) =
      some m1 ∧ Same m m1 := by
    split
    · obtain ⟨m1,h1,k1⟩ := fw_keeps EFP_CLRSCR C.clrscr m
      exact ⟨m1,h1,k1.usp,k1.ssp⟩
    · obtain ⟨m1,h1,k1⟩ := fw_keeps EFP_MOVEXY C.movexy m
      exact ⟨m1,h1,k1.usp,k1.ssp⟩
  rw [moveXY,h1]
  exact epilogue_same s1 h

theorem setEcho_leaves (h : m.ssp = longWords n ++ (trapFrame cpu sr pc ++ rest)) :
    ∃ m', setEcho I cpu m = some m' ∧ Left n sr pc m.usp rest m' :=
  epilogue_same ⟨rfl,rfl⟩ h

theorem setDisplayOpts_leaves (h : m.ssp = longWords n ++ (trapFrame cpu sr pc ++ rest)) :
    ∃ m', setDisplayOpts I cpu m = some m' ∧ Left n sr pc m.usp rest m' := by
  rw [setDisplayOpts,epilogue2_eq]
  split_ifs
  all_goals exact epilogue_same ⟨rfl,rfl⟩ h

theorem printA1_leaves {mods : List (Fin 15)} (efp : Nat) (R : EfpRoutine mods)
    (h : m.ssp = longWords n ++ (trapFrame cpu sr pc ++ rest)) :
    ∃ m', printA1 cpu (fw efp R.run) m = some m' ∧ Left n sr pc m.usp rest m' := by
  obtain ⟨m1,h1⟩ : ∃ m1, m1 = (m.pushL (m.reg a0)).setL a0 ((m.pushL (m.reg a0)).reg a1) := ⟨_,rfl⟩
  obtain ⟨m2,h2,k2⟩ := fw_keeps efp R m1
  have hs : (m2.setL a1 (m2.reg a0)).ssp = longWords (m.reg a0) ++ m.ssp := by
    refine k2.ssp.trans ?_
    rw [h1]
    rfl
  have hu : m2.usp = m.usp := by
    refine k2.usp.trans ?_
    rw [h1]
    rfl
  obtain ⟨m3,h3,l3⟩ := epilogue_same
    (k := setL { m2.setL a1 (m2.reg a0) with ssp := m.ssp } a0 (m.reg a0)) ⟨hu,rfl⟩ h
  refine ⟨m3,?_,l3⟩
  simp only [printA1,← h1,h2,popTo_eq a0 hs,Option.bind_eq_bind,Option.bind_some]
  exact h3

theorem printSzPrintNum_leaves (h : m.ssp = longWords n ++ (trapFrame cpu sr pc ++ rest)) :
    ∃ m', printSzPrintNum C cpu m = some m' ∧ Left n sr pc m.usp rest m' := by
  obtain ⟨m1,h1⟩ : ∃ m1, m1 = (m.pushL (m.reg a0)).setL a0 ((m.pushL (m.reg a0)).reg a1) := ⟨_,rfl⟩
  obtain ⟨m2,h2,k2⟩ := fw_keeps EFP_PRINT C.print m1
  have hs1 : m1.ssp = longWords (m.reg a0) ++ m.ssp := h1 ▸ rfl
  have hu1 : m1.usp = m.usp := h1 ▸ rfl
  obtain ⟨hu,hs⟩ := callC_stack C.printSigned (m := m2.pushL (m2.reg d1)) (pushL_ssp m2 _) rfl
  obtain ⟨m3,h3,l3⟩ := epilogue_same
    (k := setL { callC C.printSigned (m2.pushL (m2.reg d1)) with ssp := m.ssp } a0 (m.reg a0))
    ⟨hu.trans (k2.usp.trans hu1),rfl⟩ h
  refine ⟨m3,?_,l3⟩
  simp only [printSzPrintNum,← h1,FW_PRINT,h2,popTo_eq a0 (hs.trans (k2.ssp.trans hs1)),
    Option.bind_eq_bind,Option.bind_some]
  exact h3

-- A number is read once the loop over its digits ends, and what was pushed is taken off again.
theorem readlnNumImpl_spec (m : M68k) : ∃ m1, m1.input = m.input ∧ (m1.word d3).toNat = 10 ∧
    ∀ fuel, match runLoop d3 (readlnNumBody C I) fuel .dbra m1 with
      | none => readlnNumImpl C I fuel m = none
      | some _ => ∃ m', readlnNumImpl C I fuel m = some m' ∧ Same m m' := by
  obtain ⟨m1,h1⟩ : ∃ m1, m1 = (m.pushL (m.reg d2)).pushL ((m.pushL (m.reg d2)).reg d3) := ⟨_,rfl⟩
  obtain ⟨m2,h2,s2,i2⟩ := prompt_same C I I.readnumPrompt m1
  obtain ⟨m3,h3⟩ : ∃ m3, m3 = (m2.setL d1 (m2.reg d1 ^^^ m2.reg d1)).setW d3 10 := ⟨_,rfl⟩
  have hi : m3.input = m.input := by
    rw [h3]
    refine i2.trans ?_
    rw [h1]
    rfl
  have hw : (m3.word d3).toNat = 10 := by
    rw [h3,word_setW]
    rfl
  have hs : m3.usp = m.usp ∧ m3.ssp = longWords (m.reg d3) ++ (longWords (m.reg d2) ++ m.ssp) := by
    rw [h3]
    refine ⟨s2.usp.trans ?_,s2.ssp.trans ?_⟩
    all_goals
      rw [h1]
      rfl
  refine ⟨m3,hi,hw,fun fuel => ?_⟩
  cases hr : runLoop d3 (readlnNumBody C I) fuel .dbra m3 with
  | none => simp only [readlnNumImpl,← h1,h2,← h3,hr,Option.bind_eq_bind,Option.bind_some,
      Option.bind_none]
  | some m4 =>
    have s4 : Same m3 m4 := by
      refine runLoop_same (fun m l m' h => ?_) hr
      obtain ⟨l',m1,h1,hs,_⟩ := readlnNumBody_spec C I m
      obtain ⟨rfl,rfl⟩ := Prod.mk.inj (Option.some.inj (h.symm.trans h1))
      exact hs
    obtain ⟨m5,h5,s5⟩ := newline_same C I m4
    have hs5 := s5.ssp.trans (s4.ssp.trans hs.2)
    obtain ⟨m6,h6⟩ : ∃ m6, m6 = setL { m5 with ssp := longWords (m.reg d2) ++ m.ssp } d3
        (m.reg d3) := ⟨_,rfl⟩
    have hs6 : m6.ssp = longWords (m.reg d2) ++ m.ssp := h6 ▸ rfl
    have hu6 : m6.usp = m.usp := by
      rw [h6]
      exact s5.usp.trans (s4.usp.trans hs.1)
    refine ⟨setL { m6 with ssp := m.ssp } d2 (m.reg d2),?_,hu6,rfl⟩
    simp only [readlnNumImpl,← h1,h2,← h3,hr,h5,popTo_eq d3 hs5,← h6,popTo_eq d2 hs6,
      Option.bind_eq_bind,Option.bind_some]

theorem readlnNumImpl_ends {fuel : Nat} (h : readlnNumImpl C I fuel m = some m') :
    NumberEnds 10 m.input := by
  obtain ⟨m1,hi,hw,hrun⟩ := readlnNumImpl_spec C I m
  rw [← hi,← hw,← number_run C I]
  have hf := hrun fuel
  cases hr : runLoop d3 (readlnNumBody C I) fuel .dbra m1 with
  | none =>
    simp only [hr] at hf
    exact nomatch hf.symm.trans h
  | some m2 => exact ⟨fuel,m2,hr⟩

theorem readlnNumImpl_runs (h : NumberEnds 10 m.input) :
    ∃ fuel m', readlnNumImpl C I fuel m = some m' ∧ Same m m' := by
  obtain ⟨m1,hi,hw,hrun⟩ := readlnNumImpl_spec C I m
  rw [← hi,← hw,← number_run C I] at h
  obtain ⟨fuel,m2,hr⟩ := h
  have hf := hrun fuel
  simp only [hr] at hf
  exact ⟨fuel,hf⟩

theorem readlnNum_leaves (h : m.ssp = longWords n ++ (trapFrame cpu sr pc ++ rest)) :
    (∃ fuel m', readlnNum C I cpu fuel m = some m' ∧ Left n sr pc m.usp rest m') ↔
      NumberEnds 10 m.input := by
  constructor
  · rintro ⟨fuel,m',hf,_⟩
    obtain ⟨m1,h1,_⟩ := Option.bind_eq_some_iff.mp hf
    obtain ⟨m2,h2,_⟩ := Option.bind_eq_some_iff.mp h1
    have hend := readlnNumImpl_ends C I h2
    rwa [pushL_input] at hend
  · intro hend
    rw [← pushL_input m (I.back .readlnNum)] at hend
    obtain ⟨fuel,m1,h1,s1⟩ := readlnNumImpl_runs C I hend
    obtain ⟨m2,h2,s2⟩ := bsr_same (f := readlnNumImpl C I fuel) h1 s1
    obtain ⟨m3,h3,l3⟩ := epilogue_same s2 h
    refine ⟨fuel,m3,?_,l3⟩
    simp only [readlnNum,h2,Option.bind_eq_bind,Option.bind_some]
    exact h3

theorem printSzReadNum_leaves (h : m.ssp = longWords n ++ (trapFrame cpu sr pc ++ rest)) :
    (∃ fuel m', printSzReadNum C I cpu fuel m = some m' ∧ Left n sr pc m.usp rest m') ↔
      NumberEnds 10 m.input := by
  obtain ⟨m1,h1⟩ : ∃ m1, m1 = (m.pushL (m.reg a0)).setL a0 ((m.pushL (m.reg a0)).reg a1) := ⟨_,rfl⟩
  obtain ⟨m2,h2,k2⟩ := fw_keeps EFP_PRINT C.print m1
  have hs1 : m1.ssp = longWords (m.reg a0) ++ m.ssp := h1 ▸ rfl
  have hu1 : m1.usp = m.usp := h1 ▸ rfl
  have hi2 : m2.input = m.input := by
    refine k2.input.trans ?_
    rw [h1]
    rfl
  simp only [printSzReadNum,← h1,FW_PRINT,h2,Option.bind_eq_bind,Option.bind_some]
  constructor
  · rintro ⟨fuel,m',hf,_⟩
    obtain ⟨m3,h3,_⟩ := Option.bind_eq_some_iff.mp hf
    obtain ⟨m4,h4,_⟩ := Option.bind_eq_some_iff.mp h3
    have hend := readlnNumImpl_ends C I h4
    rwa [pushL_input,hi2] at hend
  · intro hend
    rw [← hi2,← pushL_input m2 (I.back .printSzReadNum)] at hend
    obtain ⟨fuel,m3,h3,s3⟩ := readlnNumImpl_runs C I hend
    obtain ⟨m4,h4,s4⟩ := bsr_same (f := readlnNumImpl C I fuel) h3 s3
    obtain ⟨m5,h5,l5⟩ := epilogue_same (k := setL { m4 with ssp := m.ssp } a0 (m.reg a0))
      ⟨s4.usp.trans (k2.usp.trans hu1),rfl⟩ h
    refine ⟨fuel,m5,?_,l5⟩
    simp only [h4,popTo_eq a0 (s4.ssp.trans (k2.ssp.trans hs1)),Option.bind_some]
    exact h5

-- A task comes back, but for the halt and for a number that never ends.
def Finishes (input : Nat → BitVec 8) : Easy68kTask → Prop
  | .halt => False
  | .readlnNum => NumberEnds 10 input
  | .printSzReadNum => NumberEnds 10 input
  | _ => True

theorem handler_leaves (t : Easy68kTask)
    (h : m.ssp = longWords n ++ (trapFrame cpu sr pc ++ rest)) :
    (∃ fuel m', handler C I cpu fuel m t = some m' ∧ Left n sr pc m.usp rest m') ↔
      Finishes m.input t := by
  cases t with
  | printlnLen => exact iff_of_true (printlnLen_leaves C I h) trivial
  | printLen => exact iff_of_true (printLen_leaves C I h) trivial
  | readlnStr => exact iff_of_true (readlnStr_leaves C I h) trivial
  | displaynumSigned => exact iff_of_true ⟨0,displaynumSigned_leaves C h⟩ trivial
  | readlnNum => exact readlnNum_leaves C I h
  | readChar => exact iff_of_true ⟨0,readChar_leaves C h⟩ trivial
  | sendChar => exact iff_of_true ⟨0,sendChar_leaves C h⟩ trivial
  | checkRecv => exact iff_of_true ⟨0,checkRecv_leaves I h⟩ trivial
  | getTicks => exact iff_of_true ⟨0,getTicks_leaves h⟩ trivial
  | halt => exact iff_of_false (fun ⟨_,_,hf,_⟩ => nomatch hf) id
  | epilogue => exact iff_of_true ⟨0,epilogue_spec h⟩ trivial
  | moveXY => exact iff_of_true ⟨0,moveXY_leaves C h⟩ trivial
  | setEcho => exact iff_of_true ⟨0,setEcho_leaves I h⟩ trivial
  | printlnSz => exact iff_of_true ⟨0,printA1_leaves EFP_PRINTLN C.println h⟩ trivial
  | printSz => exact iff_of_true ⟨0,printA1_leaves EFP_PRINT C.print h⟩ trivial
  | displaynumUnsigned => exact iff_of_true ⟨0,displaynumUnsigned_leaves C h⟩ trivial
  | setDisplayOpts => exact iff_of_true ⟨0,setDisplayOpts_leaves I h⟩ trivial
  | printSzPrintNum => exact iff_of_true ⟨0,printSzPrintNum_leaves C h⟩ trivial
  | printSzReadNum => exact printSzReadNum_leaves C I h
  | displaynumSignedWidth => exact iff_of_true ⟨0,displaynumSignedWidth_leaves C h⟩ trivial

end Easy68k
end Handlers

section Dispatch

variable {m m' : M68k} {cpu : Cpu}

theorem M68k.popW_length {v : BitVec 16} (h : m.popW = some (v,m')) :
    m'.ssp.length + 1 = m.ssp.length := by
  unfold popW at h
  split at h
  · exact nomatch h
  · next hs =>
    obtain ⟨rfl,rfl⟩ := Prod.mk.inj (Option.some.inj h)
    rw [hs]
    rfl

theorem M68k.popL_length {v : BitVec 32} (h : m.popL = some (v,m')) :
    m'.ssp.length + 2 = m.ssp.length := by
  obtain ⟨⟨x,m1⟩,h1,h⟩ := Option.bind_eq_some_iff.mp h
  obtain ⟨⟨y,m2⟩,h2,h⟩ := Option.bind_eq_some_iff.mp h
  obtain ⟨rfl,rfl⟩ := Prod.mk.inj (Option.some.inj h)
  have hl1 := popW_length h1
  have hl2 := popW_length h2
  omega

-- What an rte takes off has the size of a frame, whatever it is.
theorem M68k.rte_length (h : m.rte cpu = some m') :
    2 * m'.ssp.length + cpu.frameSize = 2 * m.ssp.length := by
  obtain ⟨⟨x,m1⟩,h1,h⟩ := Option.bind_eq_some_iff.mp h
  obtain ⟨⟨y,m2⟩,h2,h⟩ := Option.bind_eq_some_iff.mp h
  obtain ⟨m3,h3,h⟩ := Option.bind_eq_some_iff.mp h
  have hm : m'.ssp = m3.ssp := Option.some.inj h ▸ rfl
  have hl1 := popW_length h1
  have hl2 := popL_length h2
  rw [hm]
  cases cpu with
  | m68000 =>
    have he : m2 = m3 := Option.some.inj h3
    rw [← he,Cpu.frameSize]
    omega
  | m68010 =>
    obtain ⟨⟨f,m4⟩,h4,h3⟩ := Option.bind_eq_some_iff.mp h3
    have hl4 := popW_length h4
    have he : m4 = m3 := by
      dsimp only at h3
      split at h3
      · exact Option.some.inj h3
      · exact nomatch h3
    rw [← he,Cpu.frameSize]
    omega

theorem M68k.trap_ssp (m : M68k) (cpu : Cpu) : (m.trap cpu Easy68k.TRAP_15_VECTOR_ADDR).ssp =
    trapFrame cpu m.sr (m.pc + 2) ++ m.ssp := by
  cases cpu <;> rfl

-- Back at the instruction after the trap, with the task number and both stacks as they were.
structure TrapReturns (m m' : M68k) : Prop where
  d0 : m'.reg d0 = m.reg d0
  sr : m'.sr = m.sr
  pc : m'.pc = m.pc + 2
  usp : m'.usp = m.usp
  ssp : m'.ssp = m.ssp

-- The trap comes back, and does nothing else for a number that is no task's.
def TrapUnwinds (C : Easy68kConsole) (I : Easy68kImage) (cpu : Cpu) (m : M68k) : Prop :=
  ∃ fuel m', Easy68k.trap15 C I cpu fuel m = some m' ∧ TrapReturns m m' ∧
    (20 < m.reg d0 → m' = { m with pc := m.pc + 2 })

variable (C : Easy68kConsole) (I : Easy68kImage)

namespace Easy68k

theorem trap15_out_of_range {fuel : Nat} (hn : 20 < m.reg d0)
    (h : trap15 C I cpu fuel m = some m') : m'.ssp ≠ m.ssp := by
  obtain ⟨m1,h1⟩ : ∃ m1, m1 = m.trap cpu TRAP_15_VECTOR_ADDR := ⟨_,rfl⟩
  have hd : m1.reg d0 = m.reg d0 := by
    rw [h1]
    cases cpu <;> rfl
  have hs : m1.ssp = trapFrame cpu m.sr (m.pc + 2) ++ m.ssp := h1 ▸ m.trap_ssp cpu
  have hr : (m1.pushL (m1.reg d0)).rte cpu = some m' := by
    rw [trap15,← h1,trap15Handler] at h
    dsimp only at h
    rwa [if_pos (show 20 < (m1.pushL (m1.reg d0)).reg d0 from hd ▸ hn)] at h
  have hl := rte_length hr
  rw [pushL_ssp,hs] at hl
  intro he
  rw [he] at hl
  have hf : 2 * (trapFrame cpu m.sr (m.pc + 2)).length = cpu.frameSize := by
    cases cpu <;> rfl
  simp only [List.length_append,longWords,List.length_cons,List.length_nil] at hl
  omega

theorem jumpTable_task {k : Nat} (hk : k ≤ 20) (input : Nat → BitVec 8) :
    ∃ t, jumpTable[k]? = some t ∧
      (Finishes input t ↔ k ≠ 9 ∧ (k = 4 ∨ k = 18 → NumberEnds 10 input)) := by
  interval_cases k
  all_goals exact ⟨_,rfl,by simp [Finishes]⟩

theorem task_index {n : BitVec 32} (hn : n.toNat ≤ 20) :
    ((n + n + (n + n)).setWidth 16).toNat / 4 = n.toNat := by
  rw [BitVec.toNat_setWidth,BitVec.toNat_add,BitVec.toNat_add]
  omega

theorem trap15_task (c : Cpu) {t : Easy68kTask} (hn : (m.reg d0).toNat ≤ 20)
    (ht : jumpTable[(m.reg d0).toNat]? = some t) : ∃ m1, m1.usp = m.usp ∧ m1.input = m.input ∧
      m1.ssp = longWords (m.reg d0) ++ (trapFrame c m.sr (m.pc + 2) ++ m.ssp) ∧
      ∀ fuel, trap15 C I c fuel m = handler C I c fuel m1 t := by
  obtain ⟨m1,h1⟩ : ∃ m1, m1 = m.trap c TRAP_15_VECTOR_ADDR := ⟨_,rfl⟩
  have hd : m1.reg d0 = m.reg d0 := by
    rw [h1]
    cases c <;> rfl
  have hs : m1.ssp = trapFrame c m.sr (m.pc + 2) ++ m.ssp := h1 ▸ m.trap_ssp c
  have hu : m1.usp = m.usp := by
    rw [h1]
    cases c <;> rfl
  have hi : m1.input = m.input := by
    rw [h1]
    cases c <;> rfl
  obtain ⟨m2,h2⟩ : ∃ m2, m2 = m1.pushL (m1.reg d0) := ⟨_,rfl⟩
  have hd2 : m2.reg d0 = m.reg d0 := h2 ▸ hd
  obtain ⟨m3,h3⟩ : ∃ m3, m3 = m2.setL d0 (m2.reg d0 + m2.reg d0) := ⟨_,rfl⟩
  have hd3 : m3.reg d0 = m.reg d0 + m.reg d0 := by rw [h3,setL_reg,hd2]
  obtain ⟨m4,h4⟩ : ∃ m4, m4 = m3.setL d0 (m3.reg d0 + m3.reg d0) := ⟨_,rfl⟩
  have hw : (m4.word d0).toNat / 4 = (m.reg d0).toNat := by
    rw [word,h4,setL_reg,hd3]
    exact task_index hn
  have hle : ¬ 20 < m2.reg d0 := by
    rw [hd2]
    exact Nat.not_lt.mpr hn
  refine ⟨m4.setL a0 (I.handler t),?_,?_,?_,fun fuel => ?_⟩
  · rw [← hu,h4,h3,h2]
    rfl
  · rw [← hi,h4,h3,h2]
    rfl
  · rw [← hs,← hd,h4,h3,h2]
    rfl
  · rw [trap15,← h1,trap15Handler]
    dsimp only
    rw [← h2,if_neg hle,← h3,← h4,hw,ht]
    rfl

end Easy68k
end Dispatch

-- A console that shows nothing and receives what is typed.
def quietConsole : Easy68kConsole where
  print := ⟨id,fun _ _ _ => rfl,fun _ => rfl,fun _ => rfl,fun _ => rfl⟩
  println := ⟨id,fun _ _ _ => rfl,fun _ => rfl,fun _ => rfl,fun _ => rfl⟩
  printchar := ⟨id,fun _ _ _ => rfl,fun _ => rfl,fun _ => rfl,fun _ => rfl⟩
  recvchar :=
    { run := fun m => { m.setB d0 (m.input 0) with input := fun n => m.input (n + 1) }
      reg := fun m _ hr => m.setL_reg_ne _ hr
      usp := fun _ => rfl
      ssp := fun _ => rfl
      char := fun m => by
        refine (congrArg (BitVec.setWidth 8) (m.setL_reg d0 _)).trans ?_
        exact BitVec.setWidth_append_eq_right
      input := fun _ => rfl }
  clrscr := ⟨id,fun _ _ _ => rfl,fun _ => rfl,fun _ => rfl,fun _ => rfl⟩
  movexy := ⟨id,fun _ _ _ => rfl,fun _ => rfl,fun _ => rfl,fun _ => rfl⟩
  printSigned := ⟨id,fun _ => rfl,fun _ => rfl,fun _ => rfl⟩
  printUnsigned := ⟨id,fun _ => rfl,fun _ => rfl,fun _ => rfl⟩
  printSignedWidth := ⟨id,fun _ => rfl,fun _ => rfl,fun _ => rfl⟩

def smallImage : Easy68kImage where
  echoOn := 0x2000
  promptOn := 0x2001
  lfDisplay := 0x2002
  szCrlf := 0x3000
  readlnPrompt := 0x3003
  readnumPrompt := 0x300c
  handler := fun _ => 0x4000
  back := fun _ => 0x5000
  mfpRsr := none

-- In supervisor mode, with a task number and what is typed after it.
def trapMachine (n : BitVec 32) (typed : List (BitVec 8)) : M68k where
  reg := update (fun _ => 0) d0 n
  mem := fun _ => 0
  sr := 0x2700
  usp := []
  ssp := [0x1234,0x5678]
  pc := 0x1000
  input := fun i => typed.getD i 0

end RoscoM68k
