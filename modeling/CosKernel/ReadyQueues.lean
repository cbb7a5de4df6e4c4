import CosKernel.KernelThreads

/-!
# The ready table and its priority tree

What `insert_thread`, `remove_thread` and `next_thread` do to the sequences that
the linked lists stand for. The priority tree holds the nodes of exactly those
priorities whose ready list is not empty. A thread that enters an empty list
must not carry an old `_pNext`, and the node of its priority must be red unless
the tree is empty.
-/
namespace CosKernel
open RedBlackZipper RedBlackHeap IntrusiveList

/-- The tree holds the nodes of the priorities in `X`, and every node of the
ready table keeps its own priority as key and its own list as object. -/
structure Priorities (h : Heap Priority Priority) (X : Finset Priority) : Prop where
  obj : ∀ p, h.obj p = p
  key : ∀ p, h.key (.node p) = p.val
  tree : ∃ u t, Ordered (· < ·) ⟨h,X,u⟩ t

namespace Priorities

variable {h : Heap Priority Priority} {X : Finset Priority} {p : Priority}

theorem of_constructed (H : RedBlackHeap.Constructed h) (ho : ∀ p, h.obj p = p)
    (hk : ∀ p, h.key (.node p) = p.val) : Priorities h ∅ :=
  ⟨ho,hk,∅,.nil,H.ordered⟩

theorem kept {h' : Heap Priority Priority} {Y u : Finset Priority} {t : ColorTree Priority}
    {xs : List Priority} (H : Priorities h X) (K : Kept h h' xs)
    (ht : Ordered (· < ·) ⟨h',Y,u⟩ t) : Priorities h' Y :=
  ⟨fun p => by rw [K.2.1,H.obj],fun p => by rw [K.1,H.key],u,t,ht⟩

theorem empty_iff (H : Priorities h X) : h.root = none ↔ X = ∅ := by
  obtain ⟨u,t,ht⟩ := H.tree
  have hX : X = ∅ ↔ t.toList = [] := by
    rw [Finset.eq_empty_iff_forall_notMem,List.eq_nil_iff_forall_not_mem]
    exact forall_congr' fun p => not_congr (ht.elements p).symm
  rw [hX,show h.root = rootRef t from ht.tree.root]
  cases t <;> simp [rootRef,ColorTree.toList]

theorem insert (H : Priorities h X) (hp : p ∉ X) (hc : h.root ≠ none → h.color (.node p) = .red) :
    ∃ h', (h.insert (enough Priority) p).map Prod.fst = some h' ∧
      Priorities h' (Insert.insert p X) := by
  obtain ⟨u,t,ht⟩ := H.tree
  have hne : ∀ q ∈ X, h.key (.node q) ≠ h.key (.node p) := by
    intro q hq he
    rw [H.key,H.key,Nat.cast_inj] at he
    exact hp (Fin.ext he ▸ hq)
  obtain ⟨⟨h',X',u'⟩,t',e,ht',hX,-,K⟩ := ht.insert (fun _ _ => le_of_lt) hp
    (fun q hq => ⟨fun hle => lt_of_le_of_ne hle (hne q hq),id⟩)
    (fun hX => hc fun hr => hX.ne_empty (H.empty_iff.mp hr))
  simp only [Life.call,Option.map_eq_some_iff,Life.mk.injEq] at e
  obtain ⟨r,hr,rfl,rfl,-⟩ := e
  exact ⟨r.1,by rw [hr]; rfl,H.kept K ht'⟩

theorem remove (H : Priorities h X) (hp : p ∈ X) :
    ∃ h', (h.remove (enough Priority) p).map Prod.fst = some h' ∧ Priorities h' (X.erase p) := by
  obtain ⟨u,t,ht⟩ := H.tree
  have hf := ht.fuel
  have hk := ht.tree.standing.sidesKept (show t.toList.length < enough Priority by omega) ht.sorted
    ((ht.elements p).mpr hp)
  obtain ⟨⟨h',X',u'⟩,t',e,ht',hX,-,K⟩ := ht.remove (fun _ _ => le_of_lt) hp hk
  simp only [Life.call,Option.map_eq_some_iff,Life.mk.injEq] at e
  obtain ⟨r,hr,rfl,rfl,-⟩ := e
  exact ⟨r.1,by rw [hr]; rfl,H.kept K ht'⟩

/-- Removing a node that is not in the tree does nothing. -/
theorem remove_absent (H : Priorities h X) (hp : p ∉ X) :
    h.remove (enough Priority) p = some (h,false) := by
  obtain ⟨u,t,ht⟩ := H.tree
  have hloose := ht.tree.loose p fun hmem => hp ((ht.elements p).mp hmem)
  exact if_pos (Or.inr hloose.2.2)

theorem min (H : Priorities h X) (hp : p ∈ X) (hmin : ∀ q ∈ X, p ≤ q) :
    h.min (enough Priority) = some (some p) := by
  obtain ⟨u,t,ht⟩ := H.tree
  rw [show h.min (enough Priority) = some (t.toList.head?.map h.obj) from ht.sound.min]
  have hmem := (ht.elements p).mpr hp
  have hs := ht.sorted
  have he := ht.elements
  cases hl : t.toList with
  | nil => simp [hl] at hmem
  | cons q qs =>
      rw [hl] at hmem hs
      have hq : q ∈ X := (he q).mp (by simp [hl])
      rcases List.mem_cons.mp hmem with rfl | hmem
      · simp [H.obj]
      · have hlt := (List.pairwise_cons.mp hs).1 p hmem
        rw [H.key,H.key,Nat.cast_lt] at hlt
        exact absurd (hmin q hq) (not_le_of_gt (Fin.lt_def.mpr hlt))

end Priorities

variable {ο θ : Type}

/-- The lists stand for `f`, and the tree for the priorities that are in use. -/
structure ReadyQueues (s : Store (ListId ο) θ θ) (h : Heap Priority Priority)
    (f : ListId ο → List θ) : Prop where
  lists : Represents s f
  values : ∀ t, (s.node t).value = t
  tree : ∃ X, Priorities h X ∧ ∀ p, p ∈ X ↔ f (.ready p) ≠ []

variable [DecidableEq ο] [DecidableEq θ]

abbrev PointerKernel (ο θ : Type) := Kernel (Store (ListId ο) θ θ) θ

variable {k : PointerKernel ο θ} {f : ListId ο → List θ} {t u : θ} {l m : ListId ο} {p : Priority}

theorem mem_pushBack : u ∈ sequenceCall f (.pushBack l t) m ↔ u ∈ f m ∨ m = l ∧ u = t := by
  by_cases hm : m = l
  · subst hm; simp [sequenceCall]
  · simp [sequenceCall,hm]

theorem mem_erase (hd : (f l).Nodup) :
    u ∈ sequenceCall f (.erase l t) m ↔ u ∈ f m ∧ ¬(m = l ∧ u = t) := by
  by_cases hm : m = l
  · subst hm
    simp [sequenceCall,hd.mem_erase_iff]
    tauto
  · simp [sequenceCall,hm]

/-- `t` goes from the list `l` to the end of the list `m`. -/
def moved (f : ListId ο → List θ) (l m : ListId ο) (t : θ) : ListId ο → List θ :=
  sequenceCall (sequenceCall f (.erase l t)) (.pushBack m t)

theorem mem_moved {n : ListId ο} (hd : (f l).Nodup) :
    u ∈ moved f l m t n ↔ u ∈ f n ∧ ¬(n = l ∧ u = t) ∨ n = m ∧ u = t := by
  rw [moved,mem_pushBack,mem_erase hd]

namespace ReadyQueues

variable {s : Store (ListId ο) θ θ} {h : Heap Priority Priority}

theorem empty_eq (H : ReadyQueues s h f) (l : ListId ο) :
    ListFamily.empty s l = (f l).isEmpty := (H.lists.chained l).observed.empty

theorem front_eq (H : ReadyQueues s h f) (l : ListId ο) :
    ListFamily.front s l = (f l).head? := by
  have hf := (H.lists.chained l).observed.front
  simp only [H.values,Option.map_id'] at hf
  exact hf

omit [DecidableEq ο] [DecidableEq θ] in
/-- Lists of other kinds and the order within a list do not matter for the tree. -/
theorem tree_congr {g : ListId ο → List θ} (H : ReadyQueues s h f)
    (hg : ∀ p, g (.ready p) = [] ↔ f (.ready p) = []) :
    ∃ X, Priorities h X ∧ ∀ p, p ∈ X ↔ g (.ready p) ≠ [] := by
  obtain ⟨X,hX,hm⟩ := H.tree
  exact ⟨X,hX,fun p => (hm p).trans (not_congr (hg p)).symm⟩

/-- The tree knows nothing about the other lists. -/
theorem pushBack (H : ReadyQueues s h f) (ht : ∀ m, t ∉ f m)
    (hc : f l = [] → (s.node t).pNext = none) (hl : ∀ p, l ≠ .ready p) :
    ∃ s', ListFamily.pushBack s l t = some s' ∧
      ReadyQueues s' h (sequenceCall f (.pushBack l t)) := by
  obtain ⟨s',e,hr,hv⟩ := pushBack_spec H.lists ht hc
  exact ⟨s',e,hr,fun u => by rw [hv,H.values],
    H.tree_congr fun p => by simp [sequenceCall,(hl p).symm]⟩

theorem erase (H : ReadyQueues s h f) (ht : t ∈ f l) (hl : ∀ p, l ≠ .ready p) :
    ∃ s', ListFamily.erase s l t = some s' ∧
      ReadyQueues s' h (sequenceCall f (.erase l t)) := by
  obtain ⟨s',e,hr,hv⟩ := erase_spec H.lists ht
  exact ⟨s',e,hr,fun u => by rw [hv,H.values],
    H.tree_congr fun p => by simp [sequenceCall,(hl p).symm]⟩

/-- The time slice of `t` is over: it goes to the end of its ready list, and the
tree is left alone. -/
theorem rotate (H : ReadyQueues s h f) (ht : t ∈ f (.ready p)) :
    ∃ s₁ s₂, ListFamily.erase s (ListId.ready p) t = some s₁ ∧
      ListFamily.pushBack s₁ (ListId.ready p) t = some s₂ ∧
      ReadyQueues s₂ h (moved f (.ready p) (.ready p) t) := by
  have hd := H.lists.nodup (.ready p)
  obtain ⟨s₁,e₁,hr₁,hv₁⟩ := erase_spec H.lists ht
  have hout : ∀ m, t ∉ sequenceCall f (.erase (.ready p) t) m := by
    intro m hm
    obtain ⟨hm,hne⟩ := (mem_erase hd).mp hm
    refine hne ⟨?_,rfl⟩
    by_contra hml
    exact H.lists.disjoint m (.ready p) hml hm ht
  have hnext : Function.update f (.ready p) ((f (.ready p)).erase t) (.ready p) = [] →
      (s₁.node t).pNext = none := by
    intro hf
    rw [erase_pNext H.lists ht e₁]
    rw [Function.update_self,List.erase_eq_nil_iff,or_iff_right (List.ne_nil_of_mem ht)] at hf
    exact (H.lists.chained (.ready p)).last t (by simp [hf])
  obtain ⟨s₂,e₂,hr₂,hv₂⟩ := pushBack_spec hr₁ hout hnext
  refine ⟨s₁,s₂,e₁,e₂,hr₂,fun u => by rw [hv₂,hv₁,H.values],H.tree_congr fun q => ?_⟩
  by_cases hq : q = p
  · subst hq; simp [moved,sequenceCall,List.ne_nil_of_mem ht]
  · simp [moved,sequenceCall,hq]

end ReadyQueues

/-- What `insert_thread` relies on: a thread that enters an empty list has a null
`_pNext`, and the node of its priority is red unless the tree is empty. -/
def EntersClean (k : PointerKernel ο θ) (t : θ) : Prop :=
  let p := (k.thread t).currentPriority
  k.lists.empty (.ready p) → (k.lists.node t).pNext = none ∧
    (k.priorityTree.root ≠ none → k.priorityTree.color (.node p) = .red)

instance (k : PointerKernel ο θ) (t : θ) : Decidable (EntersClean k t) := by
  unfold EntersClean; infer_instance

theorem insertThread_spec (H : ReadyQueues k.lists k.priorityTree f) (ht : ∀ m, t ∉ f m)
    (hc : EntersClean k t) :
    ∃ s h, k.insertThread t = some {k.modify t (fun x => {x with stat := .ready}) with
        lists := s, priorityTree := h} ∧
      ReadyQueues s h (sequenceCall f (.pushBack (.ready (k.thread t).currentPriority) t)) := by
  obtain ⟨X,hX,hm⟩ := H.tree
  set p := (k.thread t).currentPriority with hp
  have hemp := H.empty_eq (.ready p)
  obtain ⟨s',e,hr,hv⟩ := pushBack_spec (l := .ready p) H.lists ht fun hf =>
    (hc (hemp.trans (by simp [hf]))).1
  have hvalues : ∀ u, (s'.node u).value = u := fun u => by rw [hv,H.values]
  have hpush : ListFamily.pushBack k.lists (ListId.ready p) t = some s' := e
  by_cases hf : f (.ready p) = []
  · obtain ⟨h',e',hX'⟩ := hX.insert (p := p) (by simp [hm,hf])
      (hc (hemp.trans (by simp [hf]))).2
    refine ⟨s',h',?_,hr,hvalues,_,hX',fun q => ?_⟩
    · simp [Kernel.insertThread,Kernel.modify,hemp,hf,e',hpush,← hp]
    · by_cases hq : q = p
      · subst hq; simp [sequenceCall]
      · simp [sequenceCall,hq,hm]
  · refine ⟨s',k.priorityTree,?_,hr,hvalues,X,hX,fun q => ?_⟩
    · simp [Kernel.insertThread,Kernel.modify,hemp,hf,hpush,← hp]
    · by_cases hq : q = p
      · subst hq; simp [sequenceCall,hm,hf]
      · simp [sequenceCall,hq,hm]

theorem removeThread_spec (H : ReadyQueues k.lists k.priorityTree f)
    (ht : t ∈ f (.ready (k.thread t).currentPriority)) :
    ∃ s h, k.removeThread t = some {k with lists := s, priorityTree := h} ∧
      k.lists.erase (.ready (k.thread t).currentPriority) t = some s ∧
      ReadyQueues s h (sequenceCall f (.erase (.ready (k.thread t).currentPriority) t)) := by
  obtain ⟨X,hX,hm⟩ := H.tree
  set p := (k.thread t).currentPriority with hp
  obtain ⟨s',e,hr,hv⟩ := erase_spec H.lists ht
  have herase : ListFamily.erase k.lists (ListId.ready p) t = some s' := e
  have hemp : ListFamily.empty s' (ListId.ready p) = ((f (.ready p)).erase t).isEmpty := by
    have := (hr.chained (.ready p)).observed.empty
    rwa [Function.update_self] at this
  have hvalues : ∀ u, (s'.node u).value = u := fun u => by rw [hv,H.values]
  by_cases hf : (f (.ready p)).erase t = []
  · obtain ⟨h',e',hX'⟩ := hX.remove ((hm p).mpr (List.ne_nil_of_mem ht))
    refine ⟨s',h',?_,e,hr,hvalues,_,hX',fun q => ?_⟩
    · simp [Kernel.removeThread,hemp,hf,e',herase,← hp]
    · by_cases hq : q = p
      · subst hq; simp [sequenceCall,hf]
      · simp [sequenceCall,hq,hm]
  · refine ⟨s',k.priorityTree,?_,e,hr,hvalues,X,hX,fun q => ?_⟩
    · simp [Kernel.removeThread,hemp,hf,herase,← hp]
    · by_cases hq : q = p
      · subst hq; simp [sequenceCall,hf,hm,List.ne_nil_of_mem ht]
      · simp [sequenceCall,hq,hm]

/-- `remove_thread` of a thread outside the lists changes nothing, if the links of
its node are harmless. -/
theorem removeThread_stray {a : θ} (H : ReadyQueues k.lists k.priorityTree f)
    (ht : ∀ m, t ∉ f m) (hprev : (k.lists.node t).pPrev = some a)
    (hcase : if (k.lists.list (.ready (k.thread t).currentPriority)).pTail = some t then
        (k.lists.node a).pNext = none ∨ ∀ m, a ∉ f m
      else ∃ b, (k.lists.node t).pNext = some b ∧ (∀ m, b ∈ f m → (f m).head? = some b) ∧
        ∀ m, a ∉ f m) :
    ∃ s, k.removeThread t = some {k with lists := s} ∧ ReadyQueues s k.priorityTree f ∧
      ((k.lists.node t).pNext = none → (s.node t).pNext = none) := by
  obtain ⟨X,hX,hm⟩ := H.tree
  set p := (k.thread t).currentPriority with hp
  obtain ⟨s,e,hr,hv,hnext⟩ := erase_stray H.lists ht hprev hcase
  have hq : ReadyQueues s k.priorityTree f :=
    ⟨hr,fun u => by rw [hv,H.values],X,hX,hm⟩
  have herase : ListFamily.erase k.lists (ListId.ready p) t = some s := e
  refine ⟨s,?_,hq,hnext⟩
  by_cases hf : f (.ready p) = []
  · have hout : p ∉ X := by simp [hm,hf]
    simp [Kernel.removeThread,← hp,herase,hX.remove_absent hout]
  · simp [Kernel.removeThread,← hp,herase,hq.empty_eq,hf]

theorem nextThread_spec (H : ReadyQueues k.lists k.priorityTree f) (hp : f (.ready p) ≠ [])
    (hmin : ∀ q < p, f (.ready q) = []) : k.nextThread = some (f (.ready p)).head? := by
  obtain ⟨X,hX,hm⟩ := H.tree
  have hle : ∀ q ∈ X, p ≤ q := fun q hq => not_lt.mp fun hlt => (hm q).mp hq (hmin q hlt)
  simp [Kernel.nextThread,Kernel.firstReady,hX.min ((hm p).mpr hp) hle,H.front_eq]

theorem nextThread_of_ready (H : ReadyQueues k.lists k.priorityTree f) (ht : t ∈ f (.ready p)) :
    ∃ q u us, f (.ready q) = u::us ∧ k.nextThread = some (some u) := by
  obtain ⟨q,hq,hmin⟩ := wellFounded_lt.has_min {q | f (.ready q) ≠ []} ⟨p,List.ne_nil_of_mem ht⟩
  have hless : ∀ r < q, f (.ready r) = [] := fun r hr => by_contra fun hne => hmin r hne hr
  obtain ⟨u,us,hu⟩ := List.exists_cons_of_ne_nil hq
  exact ⟨q,u,us,hu,by simp [nextThread_spec H hq hless,hu]⟩

theorem head_of_nextThread (H : ReadyQueues k.lists k.priorityTree f)
    (hn : k.nextThread = some (some t)) : ∃ p us, f (.ready p) = t::us := by
  by_cases hf : ∃ p u, u ∈ f (.ready p)
  · obtain ⟨p,u,hu⟩ := hf
    obtain ⟨q,v,vs,hv,hn'⟩ := nextThread_of_ready H hu
    obtain rfl : v = t := by simpa [hn'] using hn
    exact ⟨q,vs,hv⟩
  · obtain ⟨X,hX,hm⟩ := H.tree
    have hroot : k.priorityTree.root = none := by
      rw [hX.empty_iff,Finset.eq_empty_iff_forall_notMem]
      intro p hp
      obtain ⟨u,hu⟩ := List.exists_mem_of_ne_nil _ ((hm p).mp hp)
      exact hf ⟨p,u,hu⟩
    simp [Kernel.nextThread,Kernel.firstReady,Heap.min,Heap.extreme,hroot] at hn

/-- With a ready thread and a current thread `process` can always switch. -/
theorem process_spec (H : ReadyQueues k.lists k.priorityTree f) (ht : t ∈ f (.ready p))
    (hc : k.currentThread ≠ none) :
    ∃ c, k.process = some {k with currentThread := some c} := by
  obtain ⟨q,u,us,-,hn⟩ := nextThread_of_ready H ht
  obtain ⟨c,hc⟩ := Option.ne_none_iff_exists'.mp hc
  have hk : k = {k with currentThread := some c} := by rw [← hc]
  by_cases hl : k.lockNest = 0
  · by_cases hu : u = c
    · exact ⟨c,by rw [← hk]; simp [Kernel.process,hl,hn,hc,hu]⟩
    · exact ⟨u,by simp [Kernel.process,hl,hn,hc,hu]⟩
  · exact ⟨c,by rw [← hk]; simp [Kernel.process,hl]⟩

end CosKernel
