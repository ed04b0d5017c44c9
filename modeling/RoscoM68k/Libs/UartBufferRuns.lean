import RoscoM68k.Libs.UartBuffer

namespace RoscoM68k
open Function

section Steps

variable {rb k out d : Nat} {s : Uart} {q rest : List UInt8} {c : UInt8} {t : Unbuffering}

theorem size_le (hk : k ≤ 15) : 2 ^ k ≤ 32768 := Nat.pow_le_pow_right (by omega) hk

theorem indexed_place (hk : k ≤ 15) (htop : rb + 6 + 2 ^ k ≤ 2 ^ 32) (hd : d < 2 ^ k) :
    indexed (rb + 6) d = rb + 6 + d := by
  have hsize := size_le hk
  have hword : d % 65536 = d := Nat.mod_eq_of_lt (by omega)
  have hplace := indexed_small (a := rb + 6) (d := d) (by omega) (by omega)
  rw [hplace,hword]

theorem next_pointer (hk : k ≤ 15) (hd : d < 2 ^ k) :
    (d + 1) % 65536 &&& (2 ^ k - 1) = (d + 1) % 2 ^ k := by
  have hsize := size_le hk
  rw [Nat.mod_eq_of_lt (by omega : d + 1 < 65536)]
  exact Nat.and_two_pow_sub_one_eq_mod (d + 1) k

theorem bufferChar_step (h : RingAt rb k s.mem q) (hroom : q.length + 1 ≤ 2 ^ k - 1) (c : UInt8) :
    RingAt rb k (duartBufferChar s rb c).mem (q ++ [c]) ∧
      InData rb k s (duartBufferChar s rb c) := by
  have hsize := size_le h.small
  have htop := h.top
  have hw := h.holds.write_lt
  obtain ⟨w,hwrite⟩ : ∃ w, w = s.mem.readW (rb + 2) := ⟨_,rfl⟩
  rw [← hwrite] at hw
  have hplace : indexed (rb + 6) w = rb + 6 + w := indexed_place h.small htop hw
  have hnext : (w + 1) % 65536 &&& (2 ^ k - 1) = (w + 1) % 2 ^ k := next_pointer h.small hw
  have hmod : (w + 1) % 2 ^ k < 2 ^ k := Nat.mod_lt _ (by omega)
  obtain ⟨m,hm⟩ : ∃ m : Mem, m = update s.mem (rb + 6 + w) c := ⟨_,rfl⟩
  have hstep : duartBufferChar s rb c =
      ⟨m.writeW (rb + 2) ((w + 1) % 2 ^ k),s.touched ++ [rb + 6 + w]⟩ := by
    rw [duartBufferChar,← hwrite,h.mask,hplace,hnext,hm]
  have hkeep (a : Nat) (ha : a + 2 ≤ rb + 6) : m.readW a = s.mem.readW a := by
    rw [hm]
    exact Mem.readW_congr fun x _ hx => update_of_ne (by omega) c s.mem
  rw [hstep]
  refine ⟨⟨h.small,htop,?_,?_⟩,[rb + 6 + w],rfl,fun y hy => ?_⟩
  · rw [Mem.readW_writeW_apart m _ (by omega),hkeep (rb + 4) (by omega),h.mask]
  · have hcells := h.holds.push (by omega) c
    rw [← hwrite] at hcells
    rw [Mem.readW_writeW_apart m _ (by omega),hkeep rb (by omega),Mem.readW_writeW_self,
      Nat.mod_eq_of_lt (by omega : (w + 1) % 2 ^ k < 65536)]
    refine hcells.congr fun x hx => ?_
    dsimp only
    rw [Mem.writeW_of_outside m _ (by omega),hm]
    by_cases hxw : x = w
    · rw [hxw,update_self,update_self]
    · rw [update_of_ne hxw,update_of_ne (by omega)]
  · rw [List.mem_singleton.mp hy]
    omega

-- The loop has stored a part of the queue; the rest is still in the ring.
structure Draining (rb k out : Nat) (s : Uart) (q rest : List UInt8) (t : Unbuffering) : Prop where
  mem : t.uart.mem = overlay s.mem out t.stored
  next : t.a1 = out + t.stored.length
  count : t.d0 = t.stored.length
  queue : t.stored ++ rest = q
  holds : RingHolds (2 ^ k) (fun i => s.mem (rb + 6 + i)) t.d1 (s.mem.readW (rb + 2)) rest
  touched : InData rb k s t.uart

theorem draining_start (h : RingAt rb k s.mem q) :
    Draining rb k out s q q ⟨s,out,0,s.mem.readW rb,[]⟩ where
  mem := (overlay_nil s.mem out).symm
  next := rfl
  count := rfl
  queue := rfl
  holds := h.holds
  touched := .refl s

-- What is stored lies beside the ring.
theorem draining_ring {n x : Nat} (hout : OutBuffer rb (2 ^ k) out n)
    (ht : Draining rb k out s q rest t) (hn : t.stored.length ≤ n) (hx : rb ≤ x)
    (hx' : x < rb + 6 + 2 ^ k) : t.uart.mem x = s.mem x := by
  rw [ht.mem]
  obtain ha | ha := hout.2
  · exact overlay_above (by omega)
  · exact overlay_below (by omega)

theorem draining_copy {n : Nat} (h : RingAt rb k s.mem q) (hout : OutBuffer rb (2 ^ k) out n)
    (ht : Draining rb k out s q (c :: rest) t) (hn : t.stored.length + 1 ≤ n) :
    Draining rb k out s q rest (t.copy (rb + 6) (2 ^ k - 1)) := by
  have hsize := size_le h.small
  have hlen := congrArg List.length ht.queue
  rw [List.length_append,List.length_cons] at hlen
  have hfull := h.holds.room
  have hfits := hout.1
  have hd := ht.holds.read
  obtain ⟨hc,hholds⟩ := ht.holds.pop
  have hplace : indexed (rb + 6) t.d1 = rb + 6 + t.d1 := indexed_place h.small h.top hd
  have hread : t.uart.mem (rb + 6 + t.d1) = c :=
    (draining_ring hout ht (by omega) (by omega) (by omega)).trans hc
  have ha1 : t.a1 % 2 ^ 32 = out + t.stored.length := by
    rw [ht.next]
    exact Nat.mod_eq_of_lt (by omega)
  have hcount : (t.d0 + 1) % 65536 = t.stored.length + 1 := by
    rw [ht.count]
    exact Nat.mod_eq_of_lt (by omega)
  rw [Unbuffering.copy,hplace,hread,ha1,hcount,next_pointer h.small hd]
  refine ⟨?_,?_,?_,?_,hholds,ht.touched.trans ⟨[rb + 6 + t.d1],rfl,fun y hy => ?_⟩⟩
  · dsimp only
    rw [ht.mem,overlay_snoc]
  · dsimp only
    rw [ht.next,List.length_append]
    rfl
  · dsimp only
    rw [List.length_append]
    rfl
  · rw [← ht.queue,List.append_assoc]
    rfl
  · rw [List.mem_singleton.mp hy]
    omega

-- The loop stops when the pointers meet, with the whole queue stored.
theorem drain_gives (h : RingAt rb k s.mem q) (hout : OutBuffer rb (2 ^ k) out q.length)
    (ht : Draining rb k out s q rest t) :
    ∃ t', Gives (fun n => loop (fun t : Unbuffering => decide (t.d1 ≠ s.mem.readW (rb + 2)))
        (Unbuffering.copy (rb + 6) (2 ^ k - 1)) n t) t' ∧ Draining rb k out s q [] t' := by
  induction rest generalizing t with
  | nil =>
    have hmeet : t.d1 = s.mem.readW (rb + 2) := ht.holds.places_eq.mpr rfl
    exact ⟨t,Loop.gives_stop (by simp [hmeet]),ht⟩
  | cons c rest ih =>
    have hapart : t.d1 ≠ s.mem.readW (rb + 2) :=
      fun he => List.cons_ne_nil c rest (ht.holds.places_eq.mp he)
    have hlen := congrArg List.length ht.queue
    rw [List.length_append,List.length_cons] at hlen
    obtain ⟨t',hrun,ht'⟩ := ih (draining_copy h hout ht (by omega))
    exact ⟨t',Loop.gives_next (by simp [hapart]) hrun,ht'⟩

-- What a consumer leaves when it has stored its read pointer.
structure Drained (rb k out : Nat) (s : Uart) (handed rest : List UInt8) (t : Unbuffering) :
    Prop where
  ring : RingAt rb k t.uart.mem rest
  data : InData rb k s t.uart
  outcome : t.outcome out = (⟨handed.length,handed,handed⟩,t.uart)

theorem drained_done {n : Nat} (h : RingAt rb k s.mem q) (hout : OutBuffer rb (2 ^ k) out n)
    (ht : Draining rb k out s q rest t) (hn : t.stored.length ≤ n) :
    Drained rb k out s t.stored rest (t.done rb) := by
  have hsize := size_le h.small
  have hd := ht.holds.read
  have hword (a : Nat) (ha : rb ≤ a) (ha' : a + 2 ≤ rb + 6) :
      t.uart.mem.readW a = s.mem.readW a :=
    Mem.readW_congr fun x hx hx' => draining_ring hout ht hn (by omega) (by omega)
  have hmem : (t.done rb).uart.mem = t.uart.mem.writeW rb t.d1 := rfl
  refine ⟨⟨h.small,h.top,?_,?_⟩,ht.touched,?_⟩
  · rw [hmem,Mem.readW_writeW_apart _ _ (by omega),hword _ (by omega) (by omega),h.mask]
  · rw [hmem,Mem.readW_writeW_self,Nat.mod_eq_of_lt (by omega : t.d1 < 65536),
      Mem.readW_writeW_apart _ _ (by omega),hword _ (by omega) (by omega)]
    refine ht.holds.congr fun x hx => ?_
    rw [Mem.writeW_of_outside _ _ (by omega)]
    exact draining_ring hout ht hn (by omega) (by omega)
  · have hbuffer : slice (t.uart.mem.writeW rb t.d1) out t.stored.length = t.stored := by
      have hsame : slice (t.uart.mem.writeW rb t.d1) out t.stored.length =
          slice (overlay s.mem out t.stored) out t.stored.length := by
        refine slice_congr fun x hx hx' => ?_
        have hoff : x < rb ∨ rb + 2 ≤ x := by
          obtain ha | ha := hout.2
          · exact .inl (by omega)
          · exact .inr (by omega)
        rw [Mem.writeW_of_outside _ _ hoff,ht.mem]
      rw [hsame,slice_overlay_self]
    have houtcome : (t.done rb).outcome out =
        (⟨t.d0,t.stored,slice (t.uart.mem.writeW rb t.d1) out t.d0⟩,(t.done rb).uart) := rfl
    rw [houtcome,ht.count,hbuffer]

theorem unbuffer_gives (h : RingAt rb k s.mem q) (hout : OutBuffer rb (2 ^ k) out q.length) :
    ∃ t, Gives (fun n => duartUnbuffer s rb out n) t ∧ Drained rb k out s q [] t := by
  obtain ⟨t,hrun,ht⟩ := drain_gives h hout (draining_start h)
  have hall : t.stored = q := by
    rw [← ht.queue,List.append_nil]
  have hdone := drained_done h hout ht (by rw [hall])
  rw [hall] at hdone
  refine ⟨t.done rb,?_,hdone⟩
  rw [← h.mask] at hrun
  exact hrun.bind (.of_eq fun _ => rfl)

theorem unbufferOne_step (h : RingAt rb k s.mem q)
    (hout : OutBuffer rb (2 ^ k) out (q.take 1).length) :
    Drained rb k out s (q.take 1) (q.drop 1) (duartUnbufferOne s rb out) := by
  cases q with
  | nil =>
    have hmeet : s.mem.readW rb = s.mem.readW (rb + 2) := h.holds.places_eq.mpr rfl
    have hidle : duartUnbufferOne s rb out = ⟨s,out,0,s.mem.readW rb,[]⟩ := if_pos hmeet
    rw [hidle]
    exact ⟨h,.refl s,rfl⟩
  | cons c q =>
    have hapart : s.mem.readW rb ≠ s.mem.readW (rb + 2) :=
      fun he => List.cons_ne_nil c q (h.holds.places_eq.mp he)
    have hcopy := draining_copy h hout (draining_start h) le_rfl
    have hdone := drained_done h hout hcopy (by exact le_rfl)
    have hone : duartUnbufferOne s rb out =
        (Unbuffering.copy (rb + 6) (2 ^ k - 1) ⟨s,out,0,s.mem.readW rb,[]⟩).done rb := by
      rw [← h.mask]
      exact if_neg hapart
    have hstored : (Unbuffering.copy (rb + 6) (2 ^ k - 1) ⟨s,out,0,s.mem.readW rb,[]⟩).stored =
        [c] := (List.append_inj_left' hcopy.queue rfl)
    rw [hstored] at hdone
    rw [hone]
    exact hdone

theorem call_gives {call : RingCall} (h : RingAt rb k s.mem q) (ha : call.Allowed rb (2 ^ k) q) :
    ∃ s', Gives (fun n => call.run rb s n) (⟨(call.hands q).length,call.hands q,call.hands q⟩,s') ∧
      RingAt rb k s'.mem (call.leaves q) ∧ InData rb k s s' := by
  cases call with
  | bufferChar d0 =>
    obtain ⟨hring,hdata⟩ := bufferChar_step h ha d0
    exact ⟨_,.of_eq fun _ => rfl,hring,hdata⟩
  | unbuffer out =>
    obtain ⟨t,hrun,ht⟩ := unbuffer_gives h ha
    refine ⟨t.uart,?_,ht.ring,ht.data⟩
    obtain ⟨n,hn⟩ := hrun
    refine ⟨n,fun j hj => ?_⟩
    have hj : duartUnbuffer s rb out j = some t := hn j hj
    change (duartUnbuffer s rb out j).map (·.outcome out) = _
    rw [hj]
    exact congrArg some ht.outcome
  | unbufferOne out =>
    have ht := unbufferOne_step h ha
    exact ⟨_,.of_eq fun _ => congrArg some ht.outcome,ht.ring,ht.data⟩

theorem handedBy_waitingAfter (q : List UInt8) (calls : List RingCall) :
    (handedBy q calls).flatten ++ waitingAfter q calls = q ++ (calls.map (·.buffers)).flatten := by
  induction calls generalizing q with
  | nil => rw [handedBy,waitingAfter,List.map_nil,List.flatten_nil,List.append_nil,List.nil_append]
  | cons c calls ih =>
    have hcall : c.hands q ++ c.leaves q = q ++ c.buffers := by
      cases c with
      | bufferChar d0 => rfl
      | unbuffer out => rfl
      | unbufferOne out => exact (q.take_append_drop 1).trans q.append_nil.symm
    rw [handedBy,waitingAfter,List.flatten_cons,List.append_assoc,ih,← List.append_assoc,hcall,
      List.map_cons,List.flatten_cons,List.append_assoc]

theorem ringRun_gives {calls : List RingCall} (h : RingAt rb k s.mem q)
    (ha : AllAllowed rb (2 ^ k) q calls) :
    ∃ s', Gives (ringRun rb calls s)
        ((handedBy q calls).map fun xs => (⟨xs.length,xs,xs⟩ : Outcome),s') ∧
      RingAt rb k s'.mem (waitingAfter q calls) ∧ InData rb k s s' := by
  induction calls generalizing q s with
  | nil => exact ⟨s,.of_eq fun _ => rfl,h,.refl s⟩
  | cons c calls ih =>
    obtain ⟨s₁,hrun₁,hring₁,hdata₁⟩ := call_gives h ha.1
    obtain ⟨s₂,hrun₂,hring₂,hdata₂⟩ := ih hring₁ ha.2
    refine ⟨s₂,?_,hring₂,hdata₁.trans hdata₂⟩
    exact hrun₁.bind (hrun₂.bind (.of_eq fun _ => rfl))

end Steps

-- Whatever the order of the calls, the consumers are handed what they are handed by a queue, which
-- is all that has been buffered but what still waits.
theorem uart_ring_queue {rb k : Nat} {m : Mem} {calls : List RingCall} (hk : 1 ≤ k ∧ k ≤ 15)
    (htop : rb + 6 + 2 ^ k ≤ 2 ^ 32) (hmask : m.readW (rb + 4) = 2 ^ k - 1)
    (heq : m.readW rb = m.readW (rb + 2)) (hrange : m.readW rb < 2 ^ k)
    (hcalls : AllAllowed rb (2 ^ k) [] calls) :
    ∃ outs s, Gives (ringRun rb calls ⟨m,[]⟩) (outs,s) ∧
      outs = (handedBy [] calls).map (fun xs => ⟨xs.length,xs,xs⟩) ∧
      (outs.map (·.stored)).flatten ++ waitingAfter [] calls =
        (calls.map (·.buffers)).flatten ∧
      ∀ y ∈ s.touched, rb + 6 ≤ y ∧ y < rb + 6 + 2 ^ k := by
  have hstart : RingAt rb k m [] := by
    refine ⟨hk.2,htop,hmask,?_⟩
    rw [← heq]
    exact RingHolds.empty hrange
  obtain ⟨s,hrun,-,ys,hys,hin⟩ := ringRun_gives (s := ⟨m,[]⟩) hstart hcalls
  refine ⟨_,s,hrun,rfl,?_,fun y hy => ?_⟩
  · have hall := handedBy_waitingAfter [] calls
    rw [List.nil_append] at hall
    rw [List.map_map,← hall]
    congr 2
    exact List.map_id _
  · rw [hys,List.nil_append] at hy
    exact hin y hy

def fourRing : Mem := Mem.writeW (fun _ => 0) 0x2004 3

def sixCalls : List RingCall :=
  [.bufferChar 65,.bufferChar 66,.unbufferOne 0x3000,.bufferChar 67,.bufferChar 68,.unbuffer 0x3000]

theorem uart_ring_queue_four : ∃ outs s, Gives (ringRun 0x2000 sixCalls ⟨fourRing,[]⟩) (outs,s) ∧
    outs = [⟨0,[],[]⟩,⟨0,[],[]⟩,⟨1,[65],[65]⟩,⟨0,[],[]⟩,⟨0,[],[]⟩,⟨3,[66,67,68],[66,67,68]⟩] ∧
      ∀ y ∈ s.touched, 0x2006 ≤ y ∧ y < 0x200a := by
  have hcalls : AllAllowed 0x2000 (2 ^ 2) [] sixCalls := by
    simp [AllAllowed,RingCall.Allowed,RingCall.leaves,OutBuffer,Apart,sixCalls]
  obtain ⟨outs,s,hrun,houts,-,hin⟩ :=
    uart_ring_queue (m := fourRing) (by decide) (by decide) (by decide) (by decide) (by decide)
      hcalls
  exact ⟨outs,s,hrun,houts,hin⟩

end RoscoM68k
