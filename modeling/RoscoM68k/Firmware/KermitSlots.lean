import RoscoM68k.Firmware.KermitReading

namespace RoscoM68k
namespace Kermit
namespace KData

-- Packets that come in one after the other, as long as the transfer goes on.
def receiveAll (k : KData) : List (List UInt8) → Except Fault (Status × KData)
  | [] => .ok (.ok,k)
  | p :: ps => do
    match ← k.receive p p.length with
    | (.ok,k) => k.receiveAll ps
    | r => .ok r

section Slots

variable {k k' : KData} {p : List UInt8} {ps : List (List UInt8)} {pre post : List Packet}
  {i : Packet}

-- The slots that may be given away.
def free (k : KData) : Nat := k.ipktinfo.countP (·.len < 1)

-- No slot that is free has been retried too often, and there is room for a short packet in any.
structure Usable (k : KData) : Prop where
  retries : ∀ i ∈ k.ipktinfo, i.len < 1 → i.rtr ≤ k.retry
  room : k.ipktinfo.length + 3 ≤ k.ipktbuf.length

theorem modify_middle (pre post : List Packet) (i : Packet) (f : Packet → Packet) :
    (pre ++ i :: post).modify pre.length f = pre ++ f i :: post := by
  induction pre with
  | nil => rfl
  | cons j pre ih => exact congrArg (j :: ·) ih

theorem setInfo_middle (h : k.ipktinfo = pre ++ i :: post) (f : Packet → Packet) :
    (k.setInfo pre.length f).ipktinfo = pre ++ f i :: post := by
  rw [setInfo]
  dsimp only
  rw [h,modify_middle]

theorem no_slot (h : k.free = 0) : k.ipktinfo.findIdx? (·.len < 1) = none := by
  rw [List.findIdx?_eq_none_iff]
  intro i hi
  have hnone := List.countP_eq_zero.mp h i hi
  rwa [Bool.not_eq_true] at hnone

theorem first_slot (h : 0 < k.free) : ∃ pre i post, k.ipktinfo = pre ++ i :: post ∧ i.len < 1 ∧
    k.ipktinfo.findIdx? (·.len < 1) = some pre.length := by
  obtain ⟨i,hi,hlen⟩ := List.countP_pos_iff.mp h
  obtain ⟨n,hn⟩ : ∃ n, k.ipktinfo.findIdx? (·.len < 1) = some n :=
    Option.isSome_iff_exists.mp (List.findIdx?_isSome.trans (List.any_eq_true.mpr ⟨i,hi,hlen⟩))
  obtain ⟨hlt,hfree,-⟩ := List.findIdx?_eq_some_iff_getElem.mp hn
  refine ⟨k.ipktinfo.take n,k.ipktinfo[n],k.ipktinfo.drop (n + 1),?_,of_decide_eq_true hfree,?_⟩
  · rw [List.getElem_cons_drop,List.take_append_drop]
  · rw [hn,List.length_take,min_eq_left hlt.le]

theorem retried_eq (h : k.ipktinfo = pre ++ i :: post) : ∃ k', k.retried pre.length =
    .ok (k',decide (k.retry < i.rtr)) ∧ k.Settled k' ∧ k'.ipktbuf = k.ipktbuf ∧
      k'.retry = k.retry ∧ k'.ipktinfo = pre ++ { i with rtr := short (i.rtr + 1) } :: post := by
  have hentry : entry k.ipktinfo pre.length = .ok i := by
    rw [entry,h,List.getElem?_append_right le_rfl,Nat.sub_self]
    rfl
  rw [retried,hentry,ok_bind]
  exact ⟨_,rfl,k.setInfo_settled _ _,rfl,rfl,setInfo_middle h _⟩

-- A packet of less than four bytes takes a slot, and does not give it back.
theorem receive_short (hpos : 0 < p.length) (hshort : p.length < 4) (hu : k.Usable)
    (hfree : 0 < k.free) : ∃ k', k.receive p p.length = .ok (.ok,k') ∧ k'.Usable ∧
      k'.free + 1 = k.free ∧ k'.session = k.session := by
  obtain ⟨pre,i,post,hinfo,hlen,hfind⟩ := first_slot hfree
  have hlength : k.ipktinfo.length = pre.length + (post.length + 1) := by
    rw [hinfo,List.length_append,List.length_cons]
  have hfits := hu.room
  have hroom : k.Room pre.length p.length := ⟨hfind,by omega⟩
  have hplace := place_eq hroom hpos
  let k₁ := (k.placed pre.length p).sized pre.length p.length
  have hinfo₁ : k₁.ipktinfo = pre ++ { i with
      len := p.length
      seq := -1
      typ := SP } :: post :=
    setInfo_middle (setInfo_middle hinfo fun i => { i with len := -1, seq := -1, typ := SP }) _
  have hset : k.Settled k₁ := (k.placed_settled _ p).trans (setInfo_settled _ _ _)
  have hretries := hu.retries i (by rw [hinfo]; simp) hlen
  obtain ⟨k₂,hretried,hset₂,hbuf₂,hretry₂,hinfo₂⟩ := retried_eq (k := { k₁ with
    opktbuf := k₁.answer 0x4e k.r_seq []
    sent := k₁.sent ++ [k₁.answer 0x4e k.r_seq []] }) hinfo₁
  refine ⟨k₂,?_,?_,?_,hset₂.session.trans hset.session⟩
  · rw [receive,hplace,ok_bind]
    dsimp only
    rw [kermit]
    dsimp only
    rw [if_pos hshort]
    change k₁.nak k₁.r_seq pre.length = _
    rw [hset.r_seq,nak,spkt_ok k₁ 0x4e k.r_seq (by simp),ok_bind,hretried,ok_bind]
    dsimp only
    rw [if_neg (by
      rw [decide_eq_true_iff,not_lt]
      exact hretries)]
  · constructor
    · intro j hj hfreej
      rw [hinfo₂,List.mem_append,List.mem_cons] at hj
      rw [hretry₂]
      obtain hj | rfl | hj := hj
      · exact hu.retries j (by rw [hinfo]; simp [hj]) hfreej
      · dsimp only at hfreej
        omega
      · exact hu.retries j (by rw [hinfo]; simp [hj]) hfreej
    · rw [hinfo₂,hbuf₂,List.length_append,List.length_cons]
      have hsize : k₁.ipktbuf.length = k.ipktbuf.length := by
        have hfits := hroom.fits
        simp only [k₁,sized,placed,setInfo,List.length_append,List.length_take,List.length_drop]
        omega
      rw [hsize]
      omega
  · have hone : (i :: post).countP (·.len < 1) = post.countP (·.len < 1) + 1 :=
      List.countP_cons_of_pos (decide_eq_true hlen)
    rw [free,free,hinfo₂,hinfo,List.countP_append,List.countP_append,hone,List.countP_cons_of_neg]
    · omega
    · simp only [decide_eq_true_eq]
      omega

end Slots
end KData
end Kermit
end RoscoM68k
