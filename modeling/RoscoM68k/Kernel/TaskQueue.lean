import RoscoM68k.Base.Tiers
import RoscoM68k.Kernel.Task

namespace RoscoM68k
open Function

-- The priorities of the tasks are written as numerals.
instance prios_ne_zero : NeZero (4 : Nat) := ⟨by decide⟩

inductive Queue where
  | ready (p : Fin 4)
  | sleeping
  deriving DecidableEq

def Image.header (K : Image) : Queue → Nat
  | .ready p => K.runnable p
  | .sleeping => K.sleepingList

variable {K : Image} {m m' : Mem} {c d : Queue} {n t x y : Nat} {zs : List Nat}
  {Q : Queue → List Nat}

theorem header_mem (K : Image) (c : Queue) : K.header c ∈ K.headers := by
  cases c with
  | ready p => fin_cases p <;> simp [Image.header,Symbols.runnable,Symbols.headers]
  | sleeping => simp [Image.header,Symbols.headers]

theorem header_apart (K : Image) (h : c ≠ d) :
    K.header c + 12 ≤ K.header d ∨ K.header d + 12 ≤ K.header c := by
  have hp := K.headers_apart
  simp only [Symbols.headers,List.cons_append,List.pairwise_cons,List.mem_cons,
    List.nil_append] at hp
  obtain ⟨-,-,-,-,h3,h2,h1,h0,-⟩ := hp
  have a32 := h3 K.runnableList2 (by simp)
  have a31 := h3 K.runnableList1 (by simp)
  have a30 := h3 K.runnableList0 (by simp)
  have a3s := h3 K.sleepingList (by simp)
  have a21 := h2 K.runnableList1 (by simp)
  have a20 := h2 K.runnableList0 (by simp)
  have a2s := h2 K.sleepingList (by simp)
  have a10 := h1 K.runnableList0 (by simp)
  have a1s := h1 K.sleepingList (by simp)
  have a0s := h0 K.sleepingList (by simp)
  cases c with
  | sleeping =>
    cases d with
    | sleeping => exact absurd rfl h
    | ready q => fin_cases q <;> simp only [Image.header,Symbols.runnable] <;> simp <;> omega
  | ready p =>
    cases d with
    | sleeping => fin_cases p <;> simp only [Image.header,Symbols.runnable] <;> simp <;> omega
    | ready q =>
      fin_cases p <;> fin_cases q <;> simp only [Image.header,Symbols.runnable] <;>
        simp at h ⊢ <;> omega

-- Memory that can hold the links of a task: no list header lies in it.
structure Node (K : Image) (t : Nat) : Prop where
  pos : 0 < t
  top : t + 8 ≤ addressSpace
  off : ∀ c, t + 8 ≤ K.header c ∨ K.header c + 12 ≤ t

-- What the lists occupy: the five headers and the links of their tasks.
def taskLinks (K : Image) (ts : Set Nat) : Set Nat :=
  {x | (∃ c, K.header c ≤ x ∧ x < K.header c + 12) ∨ ∃ t ∈ ts, t ≤ x ∧ x < t + 8}

theorem taskLinks_mono {ts us : Set Nat} (h : ts ⊆ us) : taskLinks K ts ⊆ taskLinks K us := by
  rintro x (hx | ⟨t,ht,hx⟩)
  · exact .inl hx
  · exact .inr ⟨t,h ht,hx⟩

theorem cells_taskLinks {ts : Set Nat} (h : ∀ z ∈ zs, z ∈ ts) :
    cells (K.header c) zs ⊆ taskLinks K ts := by
  rintro x (hx | ⟨z,hz,hx⟩)
  · exact .inl ⟨c,hx⟩
  · exact .inr ⟨z,h z hz,hx⟩

structure QueueRep (K : Image) (m : Mem) (Q : Queue → List Nat) : Prop where
  lists : ∀ c, IsList m (K.header c) (Q c)
  node : ∀ c, ∀ x ∈ Q c, Node K x
  apart : ∀ c d, c ≠ d → ∀ x ∈ Q c, ∀ y ∈ Q d, NodesApart x y

def queued (Q : Queue → List Nat) : Set Nat := {t | ∃ c, t ∈ Q c}

namespace QueueRep

theorem agree (h : QueueRep K m Q) (ha : Mem.Agree (taskLinks K (queued Q)) m m') :
    QueueRep K m' Q where
  lists := fun c => (h.lists c).agree (ha.mono (cells_taskLinks (fun _ hz => ⟨c,hz⟩)))
  node := h.node
  apart := h.apart

theorem spaced_cons (h : QueueRep K m Q) (hn : Node K n)
    (hap : ∀ y ∈ Q c, NodesApart n y) : Spaced (K.header c) (n :: Q c) :=
  (h.lists c).toSpaced.cons hn.pos hn.top (hn.off c) (fun x hx => by
    have := hap x hx
    unfold NodesApart at this
    omega)

-- One of the lists gets another content, the others are not touched.
theorem relist (h : QueueRep K m Q) (hl : IsList m' (K.header c) zs) (hn : ∀ z ∈ zs, Node K z)
    (hap : ∀ d, d ≠ c → ∀ y ∈ Q d, ∀ z ∈ zs, NodesApart z y)
    (ha : Mem.Agree (cells (K.header c) zs)ᶜ m m') : QueueRep K m' (update Q c zs) := by
  have hother : ∀ d, d ≠ c → IsList m' (K.header d) (Q d) := by
    intro d hd
    refine (h.lists d).agree (ha.mono (fun x hx hx' => ?_))
    have hh := header_apart K hd
    rcases hx with hx | ⟨y,hy,hx⟩ <;> rcases hx' with hx' | ⟨z,hz,hx'⟩
    · omega
    · have := (hn z hz).off d
      omega
    · have := (h.node d y hy).off c
      omega
    · have := hap d hd y hy z hz
      unfold NodesApart at this
      omega
  refine ⟨fun d => ?_,fun d x hx => ?_,fun d e hne x hx y hy => ?_⟩
  · by_cases hd : d = c
    · subst hd
      rw [update_self]
      exact hl
    · rw [update_of_ne hd]
      exact hother d hd
  · by_cases hd : d = c
    · subst hd
      rw [update_self] at hx
      exact hn x hx
    · rw [update_of_ne hd] at hx
      exact h.node d x hx
  · by_cases hd : d = c
    · subst hd
      rw [update_self] at hx
      rw [update_of_ne (Ne.symm hne)] at hy
      exact hap e (Ne.symm hne) y hy x hx
    · rw [update_of_ne hd] at hx
      by_cases he : e = c
      · subst he
        rw [update_self] at hy
        exact (hap d hd x hx y hy).symm
      · rw [update_of_ne he] at hy
        exact h.apart d e hne x hx y hy

theorem add_head (h : QueueRep K m Q) (hn : Node K n) (hap : ∀ d, ∀ y ∈ Q d, NodesApart n y)
    (d0 : Nat) : QueueRep K (listAddHead m d0 (K.header c) n) (update Q c (n :: Q c)) ∧
      Mem.Agree (cells (K.header c) (n :: Q c))ᶜ m (listAddHead m d0 (K.header c) n) := by
  obtain ⟨hl,ha⟩ := (h.lists c).add_head d0 (h.spaced_cons hn (hap c))
  refine ⟨h.relist hl (List.forall_mem_cons.mpr ⟨hn,h.node c⟩) (fun d hd y hy z hz => ?_) ha,ha⟩
  rcases List.mem_cons.mp hz with rfl | hz
  · exact hap d y hy
  · exact h.apart c d (Ne.symm hd) z hz y hy

theorem add_tail (h : QueueRep K m Q) (hn : Node K n) (hap : ∀ d, ∀ y ∈ Q d, NodesApart n y)
    (d0 : Nat) : QueueRep K (listAddTail m d0 (K.header c) n) (update Q c (Q c ++ [n])) ∧
      Mem.Agree (cells (K.header c) (Q c ++ [n]))ᶜ m (listAddTail m d0 (K.header c) n) := by
  obtain ⟨hl,ha⟩ := (h.lists c).add_tail d0
    ((h.spaced_cons hn (hap c)).perm (List.perm_append_singleton n (Q c)).symm)
  refine ⟨h.relist hl (fun z hz => ?_) (fun d hd y hy z hz => ?_) ha,ha⟩
  · rcases List.mem_append.mp hz with hz | hz
    · exact h.node c z hz
    · exact List.mem_singleton.mp hz ▸ hn
  · rcases List.mem_append.mp hz with hz | hz
    · exact h.apart c d (Ne.symm hd) z hz y hy
    · exact List.mem_singleton.mp hz ▸ hap d y hy

theorem delete {xs ys : List Nat} (h : QueueRep K m Q) (hc : Q c = xs ++ t :: ys) :
    QueueRep K (listNodeDelete m t) (update Q c (xs ++ ys)) ∧
      Mem.Agree (cells (K.header c) (Q c))ᶜ m (listNodeDelete m t) := by
  have hl := h.lists c
  rw [hc] at hl
  obtain ⟨hl',ha⟩ := hl.delete
  have hsub : ∀ z ∈ xs ++ ys, z ∈ Q c := by
    intro z hz
    rw [hc]
    simp only [List.mem_append,List.mem_cons] at hz ⊢
    tauto
  exact ⟨h.relist hl' (fun z hz => h.node c z (hsub z hz))
    (fun d hd y hy z hz => h.apart c d (Ne.symm hd) z (hsub z hz) y hy) ha,
    ha.mono (Set.compl_subset_compl.mpr (cells_mono hsub))⟩

end QueueRep

section Search

theorem taskFindNext_nil {l : Nat} (h : IsList m l []) : taskFindNext m l = (m,0) := by
  have hn : nodeNext m l = l + 4 := h.header_next
  rw [taskFindNext,if_pos hn]

theorem taskFindNext_cons {l : Nat} (h : IsList m l (t :: zs)) :
    taskFindNext m l = (listNodeDelete m t,t) := by
  have hne : t ≠ l + 4 := by
    have := h.off_header t (by simp)
    have := h.top
    omega
  rw [taskFindNext,if_neg (by rw [h.header_next]; exact hne)]
  exact h.delete_head_cons

-- The queues of the runnable tasks, by priority.
def readies (Q : Queue → List Nat) : Tiers 4 Nat := fun p => Q (.ready p)

theorem taskFindFirst_empty {ls : List Nat} (h : ∀ l ∈ ls, IsList m l []) :
    taskFindFirst m ls = (m,0) := by
  induction ls with
  | nil => rfl
  | cons l ls ih =>
    rw [taskFindFirst,taskFindNext_nil (h l (by simp))]
    exact ih (fun l hl => h l (by simp [hl]))

theorem taskFindFirst_found {pre post : List Nat} {l : Nat} (h : ∀ l ∈ pre, IsList m l [])
    (hl : IsList m l (t :: zs)) :
    taskFindFirst m (pre ++ l :: post) = (listNodeDelete m t,t) := by
  have ht : t ≠ 0 := (hl.node_pos t (by simp)).ne'
  induction pre with
  | nil => rw [List.nil_append,taskFindFirst,taskFindNext_cons hl,if_pos ht]
  | cons k pre ih =>
    rw [List.cons_append,taskFindFirst,taskFindNext_nil (h k (by simp))]
    exact ih (fun l hl => h l (by simp [hl]))

theorem taskNext_empty (h : QueueRep K m Q) (he : ∀ p, readies Q p = []) :
    taskNext K m = (m,K.tidle) := by
  have hnil : ∀ l ∈ [K.runnableList3,K.runnableList2,K.runnableList1,K.runnableList0],
      IsList m l [] := by
    have hp : ∀ p : Fin 4, IsList m (K.runnable p) [] := fun p => he p ▸ h.lists (.ready p)
    simp only [List.forall_mem_cons]
    exact ⟨hp 3,hp 2,hp 1,hp 0,by simp⟩
  rw [taskNext,taskFindFirst_empty hnil]
  rfl

theorem taskNext_top (h : QueueRep K m Q) {p : Fin 4} (htop : (readies Q).Top p)
    (hq : Q (.ready p) = t :: zs) : taskNext K m = (listNodeDelete m t,t) := by
  have hl : IsList m (K.runnable p) (t :: zs) := hq ▸ h.lists (.ready p)
  have ht : t ≠ 0 := (hl.node_pos t (by simp)).ne'
  have hnil : ∀ r, p < r → IsList m (K.runnable r) [] :=
    fun r hr => htop.above r hr ▸ h.lists (.ready r)
  obtain ⟨pre,post,hsplit,hpre⟩ : ∃ pre post,
      [K.runnableList3,K.runnableList2,K.runnableList1,K.runnableList0] =
        pre ++ K.runnable p :: post ∧ ∀ l ∈ pre, IsList m l [] := by
    fin_cases p
    · exact ⟨[K.runnable (3 : Fin 4),K.runnable (2 : Fin 4),K.runnable (1 : Fin 4)],_,rfl,by
        simpa using ⟨hnil 3 (by decide),hnil 2 (by decide),hnil 1 (by decide)⟩⟩
    · exact ⟨[K.runnable (3 : Fin 4),K.runnable (2 : Fin 4)],_,rfl,by
        simpa using ⟨hnil 3 (by decide),hnil 2 (by decide)⟩⟩
    · exact ⟨[K.runnable (3 : Fin 4)],_,rfl,by simpa using hnil 3 (by decide)⟩
    · exact ⟨[],_,rfl,by simp⟩
  rw [taskNext,hsplit,taskFindFirst_found hpre hl,if_pos ht]

theorem runnablePriorityQueuePtr_eq (K : Image) (m : Mem) (t : Nat) :
    runnablePriorityQueuePtr K m t = K.runnable (m.readB (taskPrio t) &&& 3) := by
  have hlt : m.readB (taskPrio t) &&& 3 < 4 := Nat.lt_succ_of_le Nat.and_le_right
  rw [runnablePriorityQueuePtr]
  generalize m.readB (taskPrio t) &&& 3 = k at hlt ⊢
  interval_cases k <;> rfl

end Search

section Signals

-- The walk down sleeping_list finds its target if it is listed, and ends otherwise.
theorem sleepingSearch_suffix {xs ys : List Nat} {fuel : Nat}
    (h : IsList m K.sleepingList (xs ++ ys)) (ht : t ≠ K.sleepingList + 4)
    (hf : ys.length < fuel) :
    sleepingSearch K m t fuel ((ys ++ [K.sleepingList + 4]).head (by simp)) =
      some (decide (t ∈ ys)) := by
  induction ys generalizing xs fuel with
  | nil =>
    obtain ⟨fuel,rfl⟩ : ∃ k, fuel = k + 1 := ⟨fuel - 1,by simp at hf; omega⟩
    rw [sleepingSearch]
    simp [Ne.symm ht]
  | cons y ys ih =>
    obtain ⟨fuel,rfl⟩ : ∃ k, fuel = k + 1 := ⟨fuel - 1,by simp at hf; omega⟩
    have hne : y ≠ K.sleepingList + 4 := by
      have := h.off_header y (by simp)
      omega
    change sleepingSearch K m t (fuel + 1) y = _
    rw [sleepingSearch]
    by_cases hy : y = t
    · simp [hy]
    · have hlist : IsList m K.sleepingList ((xs ++ [y]) ++ ys) := by simpa using h
      have hstep := ih hlist (show ys.length < fuel by simp only [List.length_cons] at hf; omega)
      rw [if_neg hy,if_neg hne,h.next_eq,hstep]
      simp [Ne.symm hy]

theorem sleepingSearch_spec (h : IsList m K.sleepingList zs) (ht : t ≠ K.sleepingList + 4) :
    sleepingSearch K m t addressSpace (nodeNext m K.sleepingList) = some (decide (t ∈ zs)) := by
  rw [h.header_next]
  exact sleepingSearch_suffix (show IsList m K.sleepingList ([] ++ zs) from h) ht h.length_lt

end Signals

end RoscoM68k
