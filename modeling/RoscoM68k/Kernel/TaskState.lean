import RoscoM68k.Kernel.TaskQueue
import RoscoM68k.Kernel.TaskSwitch

namespace RoscoM68k
open Function

-- What a task was scheduled with, and how it was suspended last.
structure TaskInfo where
  bottom : Nat
  top : Nat
  prio : Fin 4
  saved : Saved

def TaskInfo.footprint (i : TaskInfo) (t : Nat) : Set Nat :=
  Set.Ico t (t + 40) ∪ Set.Ico i.bottom i.top

structure Placed (K : Image) (t : Nat) (i : TaskInfo) : Prop where
  low : 1024 ≤ t
  top : t + 40 ≤ addressSpace
  stack_low : 1024 ≤ i.bottom
  stack_top : i.top ≤ addressSpace
  off : ∀ c, ∀ x ∈ i.footprint t, x < K.header c ∨ K.header c + 12 ≤ x
  apart : Disjoint (Set.Ico t (t + 40)) (Set.Ico i.bottom i.top)

structure Parked (K : Image) (m : Mem) (t : Nat) (i : TaskInfo) : Prop where
  low : i.bottom ≤ m.readL (taskStack t)
  frame : Frame K m i.top (m.readL (taskStack t)) i.saved
  ok : i.saved.Ok K i.top (fun _ => True)

-- The tasks in the five lists, those of the runnable ones first.
def listed (Q : Queue → List Nat) : List Nat :=
  Q (.ready 3) ++ Q (.ready 2) ++ Q (.ready 1) ++ Q (.ready 0) ++ Q .sleeping

-- `cpu` holds the task that is in none of the lists since it has been chosen to run. The tasks in
-- `run` have no frame on their stack; a task that is exiting is one of them, but is not live.
structure Tasks (K : Image) (m : Mem) (live : List Nat) (info : Nat → TaskInfo)
    (Q : Queue → List Nat) (cpu : List Nat) (run : Set Nat) : Prop where
  queues : QueueRep K m Q
  placed : ∀ t, t = K.tidle ∨ t ∈ live ∨ t ∈ run → Placed K t (info t)
  apart : ∀ t u, t = K.tidle ∨ t ∈ live ∨ t ∈ run → u = K.tidle ∨ u ∈ live ∨ u ∈ run → t ≠ u →
    Disjoint ((info t).footprint t) ((info u).footprint u)
  nodup : live.Nodup
  idle : K.tidle ∉ live
  unlisted : ∀ t ∈ run, ∀ c, t ∉ Q c
  located : (cpu ++ listed Q).Perm live
  prio : ∀ t ∈ live, m.readB (taskPrio t) &&& 3 = (info t).prio
  tier : ∀ p, ∀ t ∈ Q (.ready p), (info t).prio = p
  asleep : ∀ t ∈ Q .sleeping, ∃ c mask, (info t).saved = .waiting c mask ∧
    m.readL (taskWaits t) = mask
  awake : ∀ t, t = K.tidle ∨ t ∈ cpu ∨ (∃ p, t ∈ Q (.ready p)) → t ∉ run →
    ∀ c mask, (info t).saved ≠ .waiting c mask
  parked : ∀ t, t = K.tidle ∨ t ∈ live → t ∉ run → Parked K m t (info t)

-- The bytes on which all this depends. Of a task that runs, neither stack_addr nor sig_wait is
-- looked at, and the stack is its own.
def tasksFoot (K : Image) (live : List Nat) (info : Nat → TaskInfo) (run : Set Nat) : Set Nat :=
  {x | (∃ c, K.header c ≤ x ∧ x < K.header c + 12) ∨ ∃ t, (t = K.tidle ∨ t ∈ live) ∧
    (x ∈ Set.Ico t (t + 40) ∧ (t ∈ run → x < t + 0x10 ∨ t + 0x1c ≤ x) ∨
      t ∉ run ∧ x ∈ Set.Ico (info t).bottom (info t).top)}

section Footprints

variable {K : Image} {m m' : Mem} {t u x : Nat} {i : TaskInfo}

theorem Placed.node (h : Placed K t i) : Node K t where
  pos := by have := h.low; omega
  top := by have := h.top; omega
  off := by
    intro c
    by_contra hc
    have h1 := h.off c t (.inl ⟨le_rfl,by omega⟩)
    have h2 := h.off c (K.header c) (.inl ⟨by omega,by omega⟩)
    omega

theorem struct_disjoint {a b : Nat} (h : Disjoint (Set.Ico a (a + 40)) (Set.Ico b (b + 40))) :
    a + 40 ≤ b ∨ b + 40 ≤ a := by
  by_contra hc
  rw [Set.disjoint_left] at h
  exact h (a := max a b) ⟨by omega,by omega⟩ ⟨by omega,by omega⟩

theorem footprint_nodes {j : TaskInfo} (h : Disjoint (i.footprint t) (j.footprint u)) :
    NodesApart t u := by
  have := struct_disjoint (h.mono Set.subset_union_left Set.subset_union_left)
  unfold NodesApart
  omega

-- The part of a suspended task's memory that no list operation touches.
theorem core_off_links {ts : Set Nat} {j : Nat → TaskInfo} (hp : Placed K t i)
    (ha : ∀ u ∈ ts, u ≠ t → Disjoint (i.footprint t) ((j u).footprint u))
    (hx : x ∈ Set.Ico (t + 8) (t + 40) ∪ Set.Ico i.bottom i.top) : x ∉ taskLinks K ts := by
  have hfoot : x ∈ i.footprint t := by
    rcases hx with hx | hx
    · exact .inl ⟨by have := hx.1; omega,hx.2⟩
    · exact .inr hx
  rintro (⟨c,h1,h2⟩ | ⟨u,hu,h1,h2⟩)
  · have := hp.off c x hfoot
    omega
  · by_cases hut : u = t
    · subst hut
      rcases hx with hx | hx
      · have := hx.1
        omega
      · exact Set.disjoint_left.mp hp.apart ⟨h1,by omega⟩ hx
    · exact Set.disjoint_left.mp (ha u hu hut) hfoot (.inl ⟨h1,by omega⟩)

theorem Parked.agree (h : Parked K m t i)
    (ha : Mem.Agree (Set.Ico (t + 8) (t + 40) ∪ Set.Ico i.bottom i.top) m m') :
    Parked K m' t i := by
  have hp : m'.readL (taskStack t) = m.readL (taskStack t) := by
    refine ha.readL (fun x hx => .inl ⟨?_,?_⟩)
    · have := hx.1
      simp only [taskStack] at this
      omega
    · have := hx.2
      simp only [taskStack] at this
      omega
  refine ⟨by rw [hp]; exact h.low,?_,h.ok⟩
  rw [hp]
  exact h.frame.agree h.ok (ha.mono (fun x hx => .inr ⟨h.low.trans hx.1,hx.2⟩))

end Footprints

theorem mem_listed {Q : Queue → List Nat} {t : Nat} : t ∈ listed Q ↔ ∃ c, t ∈ Q c := by
  simp only [listed,List.mem_append]
  constructor
  · rintro ((((h | h) | h) | h) | h)
    exacts [⟨_,h⟩,⟨_,h⟩,⟨_,h⟩,⟨_,h⟩,⟨_,h⟩]
  · rintro ⟨c,h⟩
    cases c with
    | sleeping => exact .inr h
    | ready p => fin_cases p <;> simp_all

-- Putting a task into one of the lists, or taking it out.
theorem listed_update {Q : Queue → List Nat} {c : Queue} {t : Nat} {zs : List Nat}
    (h : zs.Perm (t :: Q c)) : (listed (update Q c zs)).Perm (t :: listed Q) := by
  have hcount : ∀ a, zs.count a = (t :: Q c).count a := fun a => h.count_eq a
  rw [List.perm_iff_count]
  intro a
  have ha := hcount a
  cases c with
  | sleeping =>
    simp only [listed,List.count_append,List.count_cons,update_self,ne_eq,reduceCtorEq,
      not_false_eq_true,update_of_ne] at ha ⊢
    omega
  | ready p =>
    fin_cases p <;>
    · simp only [listed,List.count_append,List.count_cons] at ha ⊢
      simp at ha ⊢
      omega

namespace Tasks

variable {K : Image} {m m' : Mem} {live : List Nat} {info : Nat → TaskInfo}
  {Q : Queue → List Nat} {cpu : List Nat} {run : Set Nat} {t u : Nat}

theorem mem_live (h : Tasks K m live info Q cpu run) {c : Queue} (ht : t ∈ Q c) : t ∈ live :=
  h.located.mem_iff.mp (List.mem_append_right _ (mem_listed.mpr ⟨c,ht⟩))

theorem cpu_live (h : Tasks K m live info Q cpu run) (ht : t ∈ cpu) : t ∈ live :=
  h.located.mem_iff.mp (List.mem_append_left _ ht)

theorem cpu_unlisted (h : Tasks K m live info Q cpu run) (ht : t ∈ cpu) (c : Queue) : t ∉ Q c := by
  intro hc
  have hnd := (h.located.nodup_iff).mpr h.nodup
  exact (List.nodup_append.mp hnd).2.2 t ht t (mem_listed.mpr ⟨c,hc⟩) rfl

theorem links_foot (h : Tasks K m live info Q cpu run) :
    taskLinks K (queued Q) ⊆ tasksFoot K live info run := by
  rintro x (hx | ⟨t,⟨c,ht⟩,hx⟩)
  · exact .inl hx
  · exact .inr ⟨t,.inr (h.mem_live ht),.inl ⟨⟨hx.1,by omega⟩,fun _ => .inl (by omega)⟩⟩

theorem core_foot (ht : t = K.tidle ∨ t ∈ live) (hr : t ∉ run) :
    Set.Ico (t + 8) (t + 40) ∪ Set.Ico (info t).bottom (info t).top ⊆
      tasksFoot K live info run := by
  rintro x (hx | hx)
  · exact .inr ⟨t,ht,.inl ⟨⟨by have := hx.1; omega,hx.2⟩,fun hc => absurd hc hr⟩⟩
  · exact .inr ⟨t,ht,.inr ⟨hr,hx⟩⟩

theorem agree (h : Tasks K m live info Q cpu run)
    (ha : Mem.Agree (tasksFoot K live info run) m m') : Tasks K m' live info Q cpu run := by
  refine { h with
    queues := h.queues.agree (ha.mono h.links_foot)
    prio := fun t ht => ?_
    asleep := fun t ht => ?_
    parked := fun t ht hr => (h.parked t ht hr).agree (ha.mono (core_foot ht hr)) }
  · have hb : taskPrio t ∈ tasksFoot K live info run := by
      refine .inr ⟨t,.inr ht,.inl ⟨⟨?_,?_⟩,fun _ => .inr ?_⟩⟩ <;> simp only [taskPrio] <;> omega
    rw [Mem.readB_congr (ha _ hb)]
    exact h.prio t ht
  · obtain ⟨c,mask,hs,hw⟩ := h.asleep t ht
    have hr : t ∉ run := fun hr => h.unlisted t hr _ ht
    refine ⟨c,mask,hs,?_⟩
    rw [ha.readL (fun x hx => core_foot (.inr (h.mem_live ht)) hr (.inl ⟨?_,?_⟩))]
    · exact hw
    · have := hx.1
      simp only [taskWaits] at this
      omega
    · have := hx.2
      simp only [taskWaits] at this
      omega

-- The lists may be relinked: the rest of what is known of a task does not depend on its links.
theorem core_off (h : Tasks K m live info Q cpu run) (ht : t = K.tidle ∨ t ∈ live) :
    Set.Ico (t + 8) (t + 40) ∪ Set.Ico (info t).bottom (info t).top ⊆
      (taskLinks K {u | u ∈ live})ᶜ := by
  have hmem : ∀ {u}, u = K.tidle ∨ u ∈ live → u = K.tidle ∨ u ∈ live ∨ u ∈ run :=
    fun hu => hu.imp_right .inl
  exact fun x hx => core_off_links (j := info) (h.placed t (hmem ht))
    (fun u hu hne => h.apart t u (hmem ht) (hmem (.inr hu)) (Ne.symm hne)) hx

theorem relist {Q' : Queue → List Nat} {cpu' : List Nat} {run' : Set Nat}
    (h : Tasks K m live info Q cpu run) (hq : QueueRep K m' Q')
    (ha : Mem.Agree (taskLinks K {u | u ∈ live})ᶜ m m')
    (hpark : ∀ t, t = K.tidle ∨ t ∈ live → t ∈ run → t ∉ run' → Parked K m t (info t))
    (hlive : ∀ t ∈ run', t ∈ run ∨ t ∈ live) (hrun : ∀ t ∈ run', ∀ c, t ∉ Q' c)
    (hloc : (cpu' ++ listed Q').Perm live)
    (htier : ∀ p, ∀ t ∈ Q' (.ready p), (info t).prio = p)
    (hsleep : ∀ t ∈ Q' .sleeping, ∃ c mask, (info t).saved = .waiting c mask ∧
      m.readL (taskWaits t) = mask)
    (hwake : ∀ t, t = K.tidle ∨ t ∈ cpu' ∨ (∃ p, t ∈ Q' (.ready p)) → t ∉ run' →
      ∀ c mask, (info t).saved ≠ .waiting c mask) : Tasks K m' live info Q' cpu' run' := by
  have hown : ∀ {t}, t = K.tidle ∨ t ∈ live ∨ t ∈ run' → t = K.tidle ∨ t ∈ live ∨ t ∈ run := by
    rintro t (ht | ht | ht)
    · exact .inl ht
    · exact .inr (.inl ht)
    · exact .inr (hlive t ht).symm
  refine { h with
    queues := hq
    placed := fun t ht => h.placed t (hown ht)
    apart := fun t u ht hu => h.apart t u (hown ht) (hown hu)
    unlisted := hrun
    located := hloc
    prio := fun t ht => ?_
    tier := htier
    asleep := fun t ht => ?_
    awake := hwake
    parked := fun t ht hr => Parked.agree ?_ (ha.mono (h.core_off ht)) }
  · have hb : taskPrio t ∈ (taskLinks K {u | u ∈ live})ᶜ :=
      h.core_off (.inr ht) (.inl (by simp only [taskPrio,Set.mem_Ico]; omega))
    rw [Mem.readB_congr (ha _ hb)]
    exact h.prio t ht
  · obtain ⟨c,mask,hs,hw⟩ := hsleep t ht
    have htl : t ∈ live := by
      refine hloc.mem_iff.mp (List.mem_append_right _ (mem_listed.mpr ⟨_,ht⟩))
    refine ⟨c,mask,hs,?_⟩
    rw [ha.readL (fun x hx => h.core_off (.inr htl) (.inl ⟨?_,?_⟩))]
    · exact hw
    · have := hx.1
      simp only [taskWaits] at this
      omega
    · have := hx.2
      simp only [taskWaits] at this
      omega
  · by_cases htr : t ∈ run
    · exact hpark t ht htr hr
    · exact h.parked t ht htr

-- What a task must be like to be put into a list.
def Suits (m : Mem) (i : TaskInfo) (t : Nat) : Queue → Prop
  | .ready p => i.prio = p ∧ ∀ c mask, i.saved ≠ .waiting c mask
  | .sleeping => ∃ c mask, i.saved = .waiting c mask ∧ m.readL (taskWaits t) = mask

theorem node (h : Tasks K m live info Q cpu run) (ht : t ∈ live) : Node K t :=
  (h.placed t (.inr (.inl ht))).node

theorem nodes_apart (h : Tasks K m live info Q cpu run) (ht : t ∈ live) (hu : u ∈ live)
    (hne : t ≠ u) : NodesApart t u :=
  footprint_nodes (h.apart t u (.inr (.inl ht)) (.inr (.inl hu)) hne)

-- The task that goes into a list may still be one of `run`, if it has a frame by now.
theorem enlist {zs : List Nat} {c : Queue} (h : Tasks K m live info Q (t :: cpu) run)
    (hz : zs.Perm (t :: Q c)) (hs : Suits m (info t) t c) (hpark : t ∈ run → Parked K m t (info t))
    (hq : QueueRep K m' (update Q c zs)) (ha : Mem.Agree (cells (K.header c) zs)ᶜ m m') :
    Tasks K m' live info (update Q c zs) cpu (run \ {t}) ∧
      Mem.Agree (taskLinks K {u | u ∈ live})ᶜ m m' := by
  have htl : t ∈ live := h.cpu_live (by simp)
  have hmem : ∀ {d x}, x ∈ update Q c zs d → x ∈ Q d ∨ x = t ∧ d = c := by
    intro d x hx
    by_cases hd : d = c
    · subst hd
      rw [update_self,hz.mem_iff] at hx
      rcases List.mem_cons.mp hx with rfl | hx
      · exact .inr ⟨rfl,rfl⟩
      · exact .inl hx
    · rw [update_of_ne hd] at hx
      exact .inl hx
  have ha' : Mem.Agree (taskLinks K {u | u ∈ live})ᶜ m m' := by
    refine ha.mono (Set.compl_subset_compl.mpr (cells_taskLinks (fun z hz' => ?_)))
    rcases List.mem_cons.mp (hz.mem_iff.mp hz') with rfl | hz'
    · exact htl
    · exact h.mem_live hz'
  have hgone : ∀ {u}, u ∉ run \ {t} → u ≠ t → u ∉ run := fun hu hne hc => hu ⟨hc,hne⟩
  refine ⟨h.relist hq ha' (fun u hu hr hnr => ?_) (fun u hu => .inl hu.1) (fun u hu d hd => ?_) ?_
    (fun p u hu => ?_) (fun u hu => ?_) (fun u hu hnr => ?_),ha'⟩
  · by_cases hut : u = t
    · subst hut
      exact hpark hr
    · exact absurd hr (hgone hnr hut)
  · rcases hmem hd with hd | ⟨rfl,-⟩
    · exact h.unlisted u hu.1 d hd
    · exact hu.2 rfl
  · refine (List.Perm.append_left cpu (listed_update hz)).trans ?_
    exact List.perm_middle.trans h.located
  · rcases hmem hu with hu | ⟨rfl,rfl⟩
    · exact h.tier p u hu
    · exact hs.1
  · rcases hmem hu with hu | ⟨rfl,rfl⟩
    · exact h.asleep u hu
    · exact hs
  · have hnd := (h.located.nodup_iff).mpr h.nodup
    rw [List.cons_append,List.nodup_cons,List.mem_append,not_or] at hnd
    rcases hu with rfl | hu | ⟨p,hu⟩
    · exact h.awake _ (.inl rfl) (hgone hnr (by rintro rfl; exact h.idle htl))
    · refine h.awake u (.inr (.inl (List.mem_cons_of_mem _ hu))) (hgone hnr ?_)
      rintro rfl
      exact hnd.1.1 hu
    · rcases hmem hu with hu | ⟨rfl,rfl⟩
      · refine h.awake u (.inr (.inr ⟨p,hu⟩)) (hgone hnr ?_)
        rintro rfl
        exact hnd.1.2 (mem_listed.mpr ⟨_,hu⟩)
      · exact hs.2

theorem fresh_apart (h : Tasks K m live info Q (t :: cpu) run) :
    ∀ d, ∀ y ∈ Q d, NodesApart t y := by
  intro d y hy
  refine h.nodes_apart (h.cpu_live (by simp)) (h.mem_live hy) ?_
  rintro rfl
  exact h.cpu_unlisted (by simp) d hy

theorem add_head {c : Queue} (h : Tasks K m live info Q (t :: cpu) run)
    (hs : Suits m (info t) t c) (hr : t ∉ run) (d0 : Nat) :
    Tasks K (listAddHead m d0 (K.header c) t) live info (update Q c (t :: Q c)) cpu run ∧
      Mem.Agree (taskLinks K {u | u ∈ live})ᶜ m (listAddHead m d0 (K.header c) t) := by
  obtain ⟨hq,ha⟩ := h.queues.add_head (c := c) (h.node (h.cpu_live (by simp))) h.fresh_apart d0
  have hin := h.enlist (.refl _) hs (fun hc => absurd hc hr) hq ha
  rwa [Set.sdiff_singleton_eq_self hr] at hin

theorem add_tail {c : Queue} (h : Tasks K m live info Q (t :: cpu) run)
    (hs : Suits m (info t) t c) (hr : t ∉ run) (d0 : Nat) :
    Tasks K (listAddTail m d0 (K.header c) t) live info (update Q c (Q c ++ [t])) cpu run ∧
      Mem.Agree (taskLinks K {u | u ∈ live})ᶜ m (listAddTail m d0 (K.header c) t) := by
  obtain ⟨hq,ha⟩ := h.queues.add_tail (c := c) (h.node (h.cpu_live (by simp))) h.fresh_apart d0
  have hin := h.enlist (List.perm_append_singleton t (Q c)) hs (fun hc => absurd hc hr) hq ha
  rwa [Set.sdiff_singleton_eq_self hr] at hin

-- A task that has just been suspended goes to sleep.
theorem sleep (h : Tasks K m live info Q (t :: cpu) {t}) (hs : Suits m (info t) t .sleeping)
    (hpark : Parked K m t (info t)) (d0 : Nat) :
    Tasks K (listAddHead m d0 K.sleepingList t) live info
        (update Q .sleeping (t :: Q .sleeping)) cpu ∅ ∧
      Mem.Agree (taskLinks K {u | u ∈ live})ᶜ m (listAddHead m d0 K.sleepingList t) := by
  obtain ⟨hq,ha⟩ := h.queues.add_head (c := .sleeping) (h.node (h.cpu_live (by simp)))
    h.fresh_apart d0
  have hin := h.enlist (.refl _) hs (fun _ => hpark) hq ha
  rwa [Set.sdiff_self] at hin

-- A task that is taken out of its list has its frame still.
theorem delete {c : Queue} {xs ys : List Nat} (h : Tasks K m live info Q cpu run)
    (hc : Q c = xs ++ t :: ys) :
    Tasks K (listNodeDelete m t) live info (update Q c (xs ++ ys)) (t :: cpu) (insert t run) ∧
      Parked K (listNodeDelete m t) t (info t) ∧
      Mem.Agree (taskLinks K {u | u ∈ live})ᶜ m (listNodeDelete m t) := by
  have htc : t ∈ Q c := by simp [hc]
  have htl : t ∈ live := h.mem_live htc
  obtain ⟨hq,ha⟩ := h.queues.delete hc
  have ha' : Mem.Agree (taskLinks K {u | u ∈ live})ᶜ m (listNodeDelete m t) :=
    ha.mono (Set.compl_subset_compl.mpr (cells_taskLinks (fun z hz => h.mem_live hz)))
  have hperm : (t :: listed (update Q c (xs ++ ys))).Perm (listed Q) := by
    have hback : update (update Q c (xs ++ ys)) c (Q c) = Q := by
      rw [update_idem,update_eq_self]
    have hout : (Q c).Perm (t :: update Q c (xs ++ ys) c) := by
      rw [update_self,hc]
      exact List.perm_middle
    have hin := listed_update hout
    rw [hback] at hin
    exact hin.symm
  have hmem : ∀ {d x}, x ∈ update Q c (xs ++ ys) d → x ∈ Q d := by
    intro d x hx
    by_cases hd : d = c
    · subst hd
      rw [update_self] at hx
      rw [hc]
      simp only [List.mem_append,List.mem_cons] at hx ⊢
      tauto
    · rw [update_of_ne hd] at hx
      exact hx
  have hloc : (t :: cpu ++ listed (update Q c (xs ++ ys))).Perm live := by
    refine List.Perm.trans ?_ h.located
    exact List.perm_middle.symm.trans (List.Perm.append_left cpu hperm)
  have hnd : ∀ d, t ∉ update Q c (xs ++ ys) d := by
    intro d hd
    have hnd := (hloc.nodup_iff).mpr h.nodup
    rw [List.cons_append,List.nodup_cons] at hnd
    exact hnd.1 (List.mem_append_right _ (mem_listed.mpr ⟨d,hd⟩))
  have hrun : t ∉ run := fun hr => h.unlisted t hr c htc
  refine ⟨h.relist hq ha' (fun u _ hr hnr => absurd (Set.mem_insert_of_mem t hr) hnr)
    (fun u hu => ?_) (fun u hu d hd => ?_) hloc
    (fun p u hu => h.tier p u (hmem hu)) (fun u hu => h.asleep u (hmem hu)) (fun u hu hnr => ?_),
    (h.parked t (.inr htl) hrun).agree (ha'.mono (h.core_off (.inr htl))),ha'⟩
  · rcases Set.mem_insert_iff.mp hu with rfl | hu
    · exact .inr htl
    · exact .inl hu
  · rcases Set.mem_insert_iff.mp hu with rfl | hu
    · exact hnd d hd
    · exact h.unlisted u hu d (hmem hd)
  · rw [Set.mem_insert_iff,not_or] at hnr
    refine h.awake u ?_ hnr.2
    rcases hu with rfl | hu | ⟨p,hu⟩
    · exact .inl rfl
    · rcases List.mem_cons.mp hu with hu | hu
      · exact absurd hu hnr.1
      · exact .inr (.inl hu)
    · exact .inr (.inr ⟨p,hmem hu⟩)

theorem park (h : Tasks K m live info Q cpu (insert t run))
    (hp : t = K.tidle ∨ t ∈ live → Parked K m t (info t))
    (hw : t = K.tidle ∨ t ∈ cpu → ∀ c mask, (info t).saved ≠ .waiting c mask) :
    Tasks K m live info Q cpu run := by
  have hown : ∀ {u}, u = K.tidle ∨ u ∈ live ∨ u ∈ run →
      u = K.tidle ∨ u ∈ live ∨ u ∈ insert t run :=
    fun hu => hu.imp_right (Or.imp_right (Set.mem_insert_of_mem t))
  refine { h with
    placed := fun u hu => h.placed u (hown hu)
    apart := fun u v hu hv => h.apart u v (hown hu) (hown hv)
    unlisted := fun u hu => h.unlisted u (Set.mem_insert_of_mem t hu)
    awake := fun u hu hr => ?_
    parked := fun u hu hr => ?_ }
  · by_cases hut : u = t
    · subst hut
      rcases hu with hu | hu | ⟨p,hu⟩
      · exact hw (.inl hu)
      · exact hw (.inr hu)
      · exact absurd hu (h.unlisted u (Set.mem_insert u run) _)
    · exact h.awake u hu (fun hc => (Set.mem_insert_iff.mp hc).elim hut hr)
  · by_cases hut : u = t
    · subst hut
      exact hp hu
    · exact h.parked u hu (fun hc => (Set.mem_insert_iff.mp hc).elim hut hr)

theorem unpark (h : Tasks K m live info Q cpu run) (ht : t = K.tidle ∨ t ∈ cpu) :
    Tasks K m live info Q cpu (insert t run) := by
  have hown : ∀ {u}, u = K.tidle ∨ u ∈ live ∨ u ∈ insert t run →
      u = K.tidle ∨ u ∈ live ∨ u ∈ run := by
    rintro u (hu | hu | hu)
    · exact .inl hu
    · exact .inr (.inl hu)
    · rcases Set.mem_insert_iff.mp hu with rfl | hu
      · exact ht.imp_right (fun hc => .inl (h.cpu_live hc))
      · exact .inr (.inr hu)
  refine { h with
    placed := fun u hu => h.placed u (hown hu)
    apart := fun u v hu hv => h.apart u v (hown hu) (hown hv)
    unlisted := fun u hu c hc => ?_
    awake := fun u hu hr => h.awake u hu (fun hc => hr (Set.mem_insert_of_mem t hc))
    parked := fun u hu hr => h.parked u hu (fun hc => hr (Set.mem_insert_of_mem t hc)) }
  rcases Set.mem_insert_iff.mp hu with rfl | hu
  · rcases ht with rfl | ht
    · exact h.idle (h.mem_live hc)
    · exact h.cpu_unlisted ht c hc
  · exact h.unlisted u hu c hc

-- What a running task was suspended with does not matter.
theorem set_saved (h : Tasks K m live info Q cpu run) (ht : t ∈ run) (sv : Saved) :
    Tasks K m live (update info t { info t with saved := sv }) Q cpu run := by
  have hfoot : ∀ u, ((update info t { info t with saved := sv }) u).footprint u =
      (info u).footprint u := by
    intro u
    by_cases hu : u = t
    · subst hu
      rw [update_self]
      rfl
    · rw [update_of_ne hu]
  have hprio : ∀ u, ((update info t { info t with saved := sv }) u).prio = (info u).prio := by
    intro u
    by_cases hu : u = t
    · subst hu
      rw [update_self]
    · rw [update_of_ne hu]
  refine { h with
    placed := fun u hu => ?_
    apart := fun u v hu hv hne => ?_
    prio := fun u hu => ?_
    tier := fun p u hu => ?_
    asleep := fun u hu => ?_
    awake := fun u hu hr => ?_
    parked := fun u hu hr => ?_ }
  · by_cases hut : u = t
    · subst hut
      rw [update_self]
      exact { h.placed u hu with }
    · rw [update_of_ne hut]
      exact h.placed u hu
  · rw [hfoot,hfoot]
    exact h.apart u v hu hv hne
  · rw [hprio]
    exact h.prio u hu
  · rw [hprio]
    exact h.tier p u hu
  · rw [update_of_ne (by rintro rfl; exact h.unlisted u ht _ hu)]
    exact h.asleep u hu
  · rw [update_of_ne (by rintro rfl; exact hr ht)]
    exact h.awake u hu hr
  · rw [update_of_ne (by rintro rfl; exact hr ht)]
    exact h.parked u hu hr

theorem born (h : Tasks K m live info Q cpu run) {i : TaskInfo}
    (hnew : ¬ (t = K.tidle ∨ t ∈ live ∨ t ∈ run)) (hp : Placed K t i)
    (hap : ∀ u, u = K.tidle ∨ u ∈ live ∨ u ∈ run →
      Disjoint (i.footprint t) ((info u).footprint u))
    (hprio : m.readB (taskPrio t) &&& 3 = i.prio) (hpark : Parked K m t i)
    (hw : ∀ c mask, i.saved ≠ .waiting c mask) :
    Tasks K m (t :: live) (update info t i) Q (t :: cpu) run := by
  have hne : ∀ {u}, u = K.tidle ∨ u ∈ live ∨ u ∈ run → u ≠ t := by
    rintro u hu rfl
    exact hnew hu
  have hold : ∀ {u}, u = K.tidle ∨ u ∈ t :: live ∨ u ∈ run →
      u = t ∨ u = K.tidle ∨ u ∈ live ∨ u ∈ run := by
    rintro u (hu | hu | hu)
    · exact .inr (.inl hu)
    · exact (List.mem_cons.mp hu).imp_right (fun hu => .inr (.inl hu))
    · exact .inr (.inr (.inr hu))
  have hinfo : ∀ {u}, u = K.tidle ∨ u ∈ live ∨ u ∈ run → update info t i u = info u :=
    fun hu => update_of_ne (hne hu) _ _
  have hlist : ∀ {u c}, u ∈ Q c → update info t i u = info u :=
    fun hu => hinfo (.inr (.inl (h.mem_live hu)))
  refine { h with
    placed := fun u hu => ?_
    apart := fun u v hu hv huv => ?_
    nodup := List.nodup_cons.mpr ⟨fun hc => hnew (.inr (.inl hc)),h.nodup⟩
    idle := fun hc => ?_
    located := by simpa using h.located
    prio := fun u hu => ?_
    tier := fun p u hu => by rw [hlist hu]; exact h.tier p u hu
    asleep := fun u hu => by rw [hlist hu]; exact h.asleep u hu
    awake := fun u hu hr => ?_
    parked := fun u hu hr => ?_ }
  · rcases hold hu with rfl | hu
    · rw [update_self]
      exact hp
    · rw [hinfo hu]
      exact h.placed u hu
  · rcases hold hu with rfl | hu' <;> rcases hold hv with rfl | hv'
    · exact absurd rfl huv
    · rw [update_self,hinfo hv']
      exact hap v hv'
    · rw [update_self,hinfo hu']
      exact (hap u hu').symm
    · rw [hinfo hu',hinfo hv']
      exact h.apart u v hu' hv' huv
  · rcases List.mem_cons.mp hc with hc | hc
    · exact hnew (.inl hc.symm)
    · exact h.idle hc
  · rcases List.mem_cons.mp hu with rfl | hu
    · rw [update_self]
      exact hprio
    · rw [hinfo (.inr (.inl hu))]
      exact h.prio u hu
  · rcases hu with rfl | hu | ⟨p,hu⟩
    · rw [hinfo (.inl rfl)]
      exact h.awake _ (.inl rfl) hr
    · rcases List.mem_cons.mp hu with rfl | hu
      · rw [update_self]
        exact hw
      · rw [hinfo (.inr (.inl (h.cpu_live hu)))]
        exact h.awake u (.inr (.inl hu)) hr
    · rw [hlist hu]
      exact h.awake u (.inr (.inr ⟨p,hu⟩)) hr
  · rcases hold (hu.imp_right .inl) with rfl | hu'
    · rw [update_self]
      exact hpark
    · rw [hinfo hu']
      refine h.parked u ?_ hr
      exact hu'.imp_right (fun hc => hc.resolve_right hr)

theorem die (h : Tasks K m live info Q (t :: cpu) run) :
    Tasks K m (live.erase t) info Q cpu run := by
  have hmem : ∀ {u}, u ∈ live.erase t → u ∈ live := List.mem_of_mem_erase
  have hown : ∀ {u}, u = K.tidle ∨ u ∈ live.erase t ∨ u ∈ run → u = K.tidle ∨ u ∈ live ∨ u ∈ run :=
    fun hu => hu.imp_right (Or.imp_left hmem)
  refine { h with
    placed := fun u hu => h.placed u (hown hu)
    apart := fun u v hu hv => h.apart u v (hown hu) (hown hv)
    nodup := h.nodup.erase t
    idle := fun hc => h.idle (hmem hc)
    located := ?_
    prio := fun u hu => h.prio u (hmem hu)
    awake := fun u hu => h.awake u (hu.imp_right (Or.imp_left (List.mem_cons_of_mem t)))
    parked := fun u hu => h.parked u (hu.imp_right hmem) }
  have := h.located.erase t
  rw [List.cons_append,List.erase_cons_head] at this
  exact this

end Tasks
end RoscoM68k
