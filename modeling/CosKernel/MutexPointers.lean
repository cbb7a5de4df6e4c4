import CosKernel.MutexRestoration
import CosKernel.StrictLists

/-!
# Priority inheritance with linked lists

The threads that wait for a mutex are read off the nodes: those that the links lead to from the
head of its suspend list. As long as no thread brings an old `_pNext` into an empty list, the
nodes stand for sequences, and a run of the linked kernel is one of the kernel over sequences.
-/
namespace CosKernel

namespace IntrusiveList

variable {ι ν τ : Type}

/-- The nodes from `p` on, at most `fuel` of them. -/
def Store.nodes (s : Store ι ν τ) : ℕ → Option ν → List ν
  | _,none => []
  | 0,some _ => []
  | fuel+1,some a => a :: s.nodes fuel (s.getNext a)

theorem Store.nodes_of_walk {s : Store ι ν τ} {fuel : ℕ} {p : Option ν} {xs : List ν}
    (h : s.walk fuel p = some xs) : s.nodes fuel p = xs := by
  induction fuel generalizing p xs with
  | zero =>
      cases p with
      | none => exact Option.some.inj h
      | some a => cases h
  | succ fuel ih =>
      cases p with
      | none => exact Option.some.inj h
      | some a =>
          obtain ⟨ys,hys,rfl⟩ := Option.map_eq_some_iff.mp h
          exact congrArg (a :: ·) (ih hys)

/-- What the links of the lists lead to. A node that is reached at all is reached within as many
steps as there are nodes. -/
def Store.read [Fintype ν] (s : Store ι ν τ) : Sequences ι ν :=
  ⟨fun l => s.nodes (Fintype.card ν) (s.list l).pHead⟩

end IntrusiveList

theorem CheckedLists.read_store {ι ν : Type} [Fintype ν] (c : CheckedLists ι ν) :
    c.store.read = c.lists := by
  refine congrArg Sequences.mk (funext fun l => IntrusiveList.Store.nodes_of_walk ?_)
  rw [(c.represents.chained l).head]
  exact (c.represents.chained l).path.walk (c.represents.nodup l).length_le_card

namespace MutexOwnership
open TransitionRuns PartialMorphisms IntrusiveList

section worlds

variable {σ σ' ο θ : Type} [DecidableEq ο] [DecidableEq θ]

def World.map (f : σ → σ') (w : World σ ο θ) : World σ' ο θ where
  kernel := w.kernel.map f
  mutex := w.mutex
  place := w.place
  takes := w.takes
  releases := w.releases

theorem taken_map (f : σ → σ') (w : World σ ο θ) (t : θ) (o : ο)
    (r : Kernel σ θ × Mutex θ × Option ℤ) :
    (w.map f).taken t o (Kernel.mapped f r) = (w.taken t o r).map f := by
  obtain ⟨k,m,_ | e⟩ := r <;> rfl

theorem call_carried [ListFamily σ (ListId ο) θ] [ListFamily σ' (ListId ο) θ]
    (φ : ListMorphism σ σ' (ι := ListId ο) (ν := θ)) (w : World σ ο θ) (c : Call ο θ) :
    Carries (World.map φ.toFun) (call w c) (call (w.map φ.toFun) c) := by
  cases c with
  | take t o time =>
      exact (Mutex.take_carried φ _ o t _ time).map fun r => taken_map φ.toFun w t o r
  | takeReturn t o => exact carries_some _
  | release t o => exact (Mutex.release_carried φ _ o t _).map fun _ => rfl
  | expire t => exact (Kernel.expire_carried φ _ t).bind fun k _ => carries_some {w with kernel := k}

end worlds

section linked

variable {ο θ : Type} [DecidableEq ο] [DecidableEq θ]

/-- The lists of coslib. -/
abbrev PointerWorld (ο θ : Type) := World (Store (ListId ο) θ θ) ο θ

abbrev CheckedWorld (ο θ : Type) := World (CheckedLists (ListId ο) θ) ο θ

/-- The world with its lists as the links lead through them. -/
def World.seen [Fintype θ] (w : PointerWorld ο θ) : IdealWorld ο θ := w.map Store.read

/-- The nodes stand for lists, with every ready thread in the one of its priority. -/
def Linked (k : PointerKernel ο θ) : Prop :=
  ∃ f, Represents k.lists f ∧ (∀ t, (k.lists.node t).value = t) ∧
    ∀ t, (k.thread t).stat = .ready → t ∈ f (.ready (k.thread t).currentPriority)

/-- No `push_back` of the call puts a node with an old `_pNext` into an empty list. -/
def Clean (w : PointerWorld ο θ) (c : Call ο θ) : Prop :=
  (call w c).isSome = true → (call (w.map StrictLists.mk) c).isSome = true

instance (w : PointerWorld ο θ) (c : Call ο θ) : Decidable (Clean w c) :=
  inferInstanceAs (Decidable (_ → _))

variable {W : CheckedWorld ο θ} {w w' : PointerWorld ο θ} {c : Call ο θ} {idle : θ} {D E : List θ}
  {k : PointerKernel ο θ}

omit [DecidableEq ο] [DecidableEq θ] in
/-- The states of the scheduler's clean runs are linked. -/
theorem linked_of_invariant {f : ListId ο → List θ} (H : Scheduler.Invariant idle D E k f) :
    Linked k :=
  ⟨f,H.queues.lists,H.queues.values,fun t ht => (H.ready t _).mpr ⟨ht,rfl⟩⟩

omit [DecidableEq ο] [DecidableEq θ] in
theorem Linked.checked (h : Linked k) :
    ∃ k' : CheckedKernel ο θ, k'.map CheckedLists.store = k ∧ k'.Sited := by
  classical
  obtain ⟨f,hf,hv,hready⟩ := h
  have hunique : ∀ l m a, a ∈ f l → a ∈ f m → l = m := fun l m a hl hm => by
    by_contra hlm
    exact hf.disjoint l m hlm hl hm
  let home (a : θ) : Option (ListId ο) := if h : ∃ l, a ∈ f l then some h.choose else none
  have hhome : ∀ l a, a ∈ f l ↔ home a = some l := by
    intro l a
    by_cases h : ∃ l, a ∈ f l
    · simp only [home,dif_pos h,Option.some.injEq]
      exact ⟨fun hl => hunique _ _ a h.choose_spec hl,fun hl => hl ▸ h.choose_spec⟩
    · simp only [home,dif_neg h,reduceCtorEq,iff_false]
      exact fun hl => h ⟨l,hl⟩
  exact ⟨k.map fun _ => ⟨k.lists,⟨f⟩,home,hf,hv,hhome⟩,rfl,fun t ht =>
    (hhome _ t).mp (hready t ht)⟩

theorem call_lifts (H : W.kernel.Sited) (hl : Untimed W c) :
    Lifts (World.map CheckedLists.strict) (fun W' => W'.kernel.Sited) (call W c)
      (call (W.map CheckedLists.strict) c) := by
  cases c with
  | take t o time =>
      refine (Mutex.take_lifts H hl.2 time).map fun r hr => ⟨taken_map _ W t o r,?_⟩
      obtain ⟨k,m,_ | e⟩ := r <;> exact hr
  | takeReturn t o => exact lifts_some H
  | release t o => exact (Mutex.release_lifts H).map fun r hr => ⟨rfl,hr⟩
  | expire t => exact hl.elim

/-- A clean step of the linked kernel is one of the kernel over sequences. -/
theorem step_of_clean (H : W.kernel.Sited) (hl : Untimed W c)
    (hc : Clean (W.map CheckedLists.store) c)
    (h : call (W.map CheckedLists.store) c = some w') :
    ∃ W' : CheckedWorld ο θ, W'.map CheckedLists.store = w' ∧ W'.kernel.Sited ∧
      call (W.map CheckedLists.lists) c = some (W'.map CheckedLists.lists) := by
  have hsome := hc (by rw [h]; rfl)
  change (call (W.map CheckedLists.strict) c).isSome = true at hsome
  rw [(call_lifts H hl).eq,Option.isSome_map] at hsome
  obtain ⟨W',hW'⟩ := Option.isSome_iff_exists.mp hsome
  have hstore := call_carried CheckedLists.toStore W c W' hW'
  exact ⟨W',Option.some.inj (hstore.symm.trans h),(call_lifts H hl).yields W' hW',
    call_carried CheckedLists.toSequences W c W' hW'⟩

variable [Fintype θ]

omit [DecidableEq ο] [DecidableEq θ] in
theorem seen_map (W : CheckedWorld ο θ) :
    (W.map CheckedLists.store).seen = W.map CheckedLists.lists := by
  unfold World.seen World.map Kernel.map
  rw [CheckedLists.read_store]

/-- The nodes stand for lists, in which the waiting threads are lined up behind owners that are
not below them. -/
def Kept (w : PointerWorld ο θ) : Prop :=
  ∃ W : CheckedWorld ο θ, W.map CheckedLists.store = w ∧ W.kernel.Sited ∧ Lined w.seen ∧
    Inherited w.seen

theorem Kept.step (H : Kept w) (hl : Untimed w c) (hclean : Clean w c) (hc : Covered w.seen c)
    (h : call w c = some w') : Kept w' := by
  obtain ⟨W,rfl,hs,L,I⟩ := H
  have hl' : Untimed W c := hl
  obtain ⟨W',rfl,hs',h'⟩ := step_of_clean hs hl' hclean h
  rw [seen_map] at L I hc
  refine ⟨W',rfl,hs',?_,?_⟩
  · rw [seen_map]
    exact L.step hl h'
  · rw [seen_map]
    exact I.step L hl hc h'

theorem Kept.missed (H : Kept w) (hl : Untimed w c) (hclean : Clean w c) (hc : ¬Covered w.seen c)
    (h : call w c = some w') : ¬Inherited w'.seen := by
  obtain ⟨W,rfl,hs,L,-⟩ := H
  obtain ⟨W',rfl,hs',h'⟩ := step_of_clean hs hl hclean h
  rw [seen_map] at L hc ⊢
  exact not_inherited_of_not_covered L hl hc h'

/-- In a clean run without timeouts an owner is never below a thread it blocks, exactly as long
as every blocking take and every last release is covered. -/
theorem owner_never_below_waiters_iff (hlinked : Linked w.kernel) (hfresh : Fresh w.seen)
    {cs : List (Call ο θ)} (hlegal : AllSteps call Untimed w cs)
    (hclean : AllSteps call Clean w cs) :
    Throughout call (fun w => Inherited w.seen) w cs ↔
      AllSteps call (fun w c => Covered w.seen c ∨ (call w c).isNone = true) w cs := by
  obtain ⟨k,hk,hs⟩ := hlinked.checked
  have hkept : Kept w := by
    refine ⟨⟨k,w.mutex,w.place,w.takes,w.releases⟩,?_,hs,hfresh.lined,fun o u _ v hv => ?_⟩
    · exact congrArg (fun k => {w with kernel := k}) hk
    · simp [hfresh.2 o] at hv
  exact throughout_iff (I := Kept) (fun _ ⟨_,_,_,_,I⟩ => I)
    (fun _ _ _ H hl hc h => H.step hl.1 hl.2 hc h)
    (fun _ _ _ H hl hc h => H.missed hl.1 hl.2 hc h) hkept (hlegal.and hclean)

end linked

theorem sixReady_linked : Linked sixReady.kernel := by
  simp only [sixReady]
  obtain ⟨f,H⟩ := Scheduler.startedPointers_invariant (ο := Fin 2) (n := 6) (i := 0)
    (p := ![254,20,10,5,20,10]) (by decide +kernel) (by decide +kernel)
  exact linked_of_invariant H

/-- Thread 4 waits for the second mutex while thread 5, which waits for the first one, raises it. -/
def nested : List (Call (Fin 2) (Fin 6)) :=
  [.take 4 0 (-1),.take 3 1 (-1),.take 4 1 (-1),.take 5 0 (-1),.release 3 1,.takeReturn 4 1,
    .release 4 1,.release 4 0,.takeReturn 5 0,.release 5 0]

theorem sixReady_fresh : Fresh sixReady.seen :=
  ⟨⟨fun _ => rfl,fun _ => rfl,fun _ _ => rfl,fun _ _ => rfl⟩,by decide +kernel⟩

theorem owner_never_below_waiters_nested :
    ((nested.foldlM call sixReady).map fun w => ((w.mutex 0).owner,(w.mutex 1).owner)) =
      some (none,none) ∧
    Throughout call (fun w => Inherited w.seen) sixReady nested :=
  ⟨by decide +kernel,(owner_never_below_waiters_iff sixReady_linked sixReady_fresh
    (by decide +kernel) (by decide +kernel)).mpr (by decide +kernel)⟩

/-- Thread 1 releases the mutex to thread 4, which waited longest, while thread 3 of priority 5
waits behind it. -/
def outranked : List (Call (Fin 2) (Fin 6)) :=
  [.take 1 0 (-1),.take 4 0 (-1),.take 3 0 (-1),.release 1 0]

theorem outranked_owner_below_waiter : AllSteps call Untimed sixReady outranked ∧
    AllSteps call Clean sixReady outranked ∧
    ((outranked.foldlM call sixReady).map fun w =>
      ((w.mutex 0).owner,w.prio 4,w.seen.kernel.waiters 0,w.prio 3)) =
        some (some 4,20,[3],5) ∧
    ¬Throughout call (fun w => Inherited w.seen) sixReady outranked := by
  have hfacts : ((outranked.foldlM call sixReady).map fun w =>
      ((w.mutex 0).owner,w.prio 4,w.seen.kernel.waiters 0,w.prio 3)) =
        some (some 4,20,[3],5) := by
    decide +kernel
  refine ⟨by decide +kernel,by decide +kernel,hfacts,fun h => ?_⟩
  obtain ⟨w,hw,hfacts⟩ := Option.map_eq_some_iff.mp hfacts
  simp only [Prod.mk.injEq] at hfacts
  have hle : w.prio 4 ≤ w.prio 3 := (h.last hw) 0 4 hfacts.1 3 (by simp [hfacts.2.2.1])
  rw [hfacts.2.1,hfacts.2.2.2] at hle
  exact absurd hle (by decide)

end MutexOwnership

end CosKernel
