import CosKernel.RedBlackLifetime
import CosKernel.Timers

/-!
# The activity flag and the timer tree

Timers of the kernel over the red-black tree of coslib. A timer counts as being in
the tree when its node can be reached from the root pointer. `detach` leaves the flag
alone, and the end of the loop body of `check` clears the flag of a one-shot timer
without a look at the tree, into which its own timeout function may have put it again.

The tree itself only works as long as nodes enter a non-empty tree red and equal keys
do not mislead a removal; this is assumed of every call here.
-/
namespace CosKernel.TimerActivity
open RedBlackHeap RedBlackZipper ColorTree TransitionRuns

variable {τ : Type}

inductive Reachable (h : Heap τ τ) : τ → Prop where
  | root {t : τ} : h.root = some (.node t) → Reachable h t
  | link {t u : τ} (s : Side) : Reachable h t → h.link (.node t) s = some (.node u) → Reachable h u

/-- A link of a node of the tree leads to a node of the tree. -/
theorem links_closed {h : Heap τ τ} {x : ColorTree τ} (H : Links h x) :
    ∀ t ∈ x.toList, ∀ s u, h.link (.node t) s = some (.node u) → u ∈ x.toList := by
  induction x with
  | nil => simp [toList]
  | node c l a r ihl ihr =>
      obtain ⟨hl,hr,hL,hR⟩ := H
      intro t ht s u hu
      simp only [toList,List.mem_append,List.mem_cons] at ht ⊢
      rcases ht with ht | rfl | ht
      · exact Or.inl (ihl hL t ht s u hu)
      · cases s with
        | left => exact Or.inl (mem_of_ref (Option.some.inj (hl.symm.trans hu)))
        | right => exact Or.inr (Or.inr (mem_of_ref (Option.some.inj (hr.symm.trans hu))))
      · exact Or.inr (Or.inr (ihr hR t ht s u hu))

theorem reachable_iff {h : Heap τ τ} {x : ColorTree τ} (H : IsTree h x) (t : τ) :
    Reachable h t ↔ t ∈ x.toList := by
  constructor
  · intro ht
    induction ht with
    | root ht =>
        have hx : x ≠ .nil := by
          intro hx
          simp [H.root,hx,rootRef] at ht
        rw [H.root,rootRef_eq_some hx] at ht
        exact mem_of_ref (Option.some.inj ht)
    | link s _ hu ih => exact links_closed H.sub.links _ ih s _ hu
  · refine H.sub.links.subset (Reachable h) (fun _ ha s _ hb => .link s ha hb) (fun a ha => ?_) t
    have hx : x ≠ .nil := by
      intro hx
      simp [hx,ref] at ha
    exact .root (by rw [H.root,rootRef_eq_some hx,ha])

variable [DecidableEq τ] [Fintype τ]

/-- The removal of `t`, if it is in the tree, reattaches no subtree on a wrong side. -/
def Removable (h : Heap τ τ) (t : τ) : Prop :=
  h.tree (.node t) = true → h.sidesKept (enough τ) (.node t) = true

/-- The node of `t` is red or the tree empty. -/
def Insertable (h : Heap τ τ) (t : τ) : Prop := h.root ≠ none → h.color (.node t) = .red

/-- `start` removes the node and inserts it again. -/
def Startable (h : Heap τ τ) (t : τ) : Prop :=
  Removable h t ∧ ∀ h' ∈ TimerTree.remove h t, Insertable h' t

/-- The tree is sound, contains the timers `P`, and every node knows its timer. -/
def Holds (h : Heap τ τ) (P : Finset τ) : Prop :=
  (∃ x, Ordered (· ≤ ·) ⟨h,P,∅⟩ x) ∧ ∀ t, h.obj t = t

section tree

variable {h h' : Heap τ τ} {P : Finset τ} {t : τ}

omit [DecidableEq τ] [Fintype τ] in
theorem Holds.reachable (H : Holds h P) : Reachable h t ↔ t ∈ P := by
  obtain ⟨⟨x,O⟩,-⟩ := H
  rw [reachable_iff O.tree,O.elements]

omit [DecidableEq τ] [Fintype τ] in
theorem Holds.tree (H : Holds h P) : h.tree (.node t) = true ↔ t ∈ P := by
  obtain ⟨⟨x,O⟩,-⟩ := H
  have he := O.elements t
  by_cases ht : t ∈ x.toList
  · exact ⟨fun _ => he.mp ht,fun _ => O.tree.owned t ht⟩
  · refine ⟨fun h => ?_,fun h => absurd (he.mpr h) ht⟩
    rw [(O.tree.loose t ht).2.2] at h
    cases h

omit [DecidableEq τ] [Fintype τ] in
theorem Holds.nonempty (H : Holds h P) : P.Nonempty ↔ h.root ≠ none := by
  obtain ⟨⟨x,O⟩,-⟩ := H
  rw [O.tree.root]
  cases x with
  | nil =>
      have : P = ∅ := Finset.eq_empty_of_forall_notMem fun a ha => by
        simpa [toList] using (O.elements a).mpr ha
      simp [this,rootRef]
  | node c l a r => simpa [rootRef] using ⟨a,(O.elements a).mp (by simp [toList])⟩

theorem Holds.remove (H : Holds h P) (hr : Removable h t) :
    ∃ h', TimerTree.remove h t = some h' ∧ Holds h' (P.erase t) := by
  by_cases ht : t ∈ P
  · have hk := hr (H.tree.mpr ht)
    obtain ⟨⟨x,O⟩,hobj⟩ := H
    obtain ⟨⟨h',P',used⟩,x',e,O',rfl,rfl,K⟩ := O.remove (fun _ _ => id) ht hk
    obtain ⟨⟨h'',b⟩,e',e⟩ := Option.map_eq_some_iff.mp e
    cases e
    refine ⟨h'',Option.map_eq_some_iff.mpr ⟨(h'',b),e',rfl⟩,⟨x',O'⟩,fun u => ?_⟩
    rw [K.2.1]
    exact hobj u
  · refine ⟨h,?_,by rwa [Finset.erase_eq_of_notMem ht]⟩
    have htree : h.tree (.node t) = false := by simpa [ht] using H.tree (t := t)
    simp [TimerTree.remove,Heap.remove,htree]

theorem Holds.insert (H : Holds h P) (ht : t ∉ P) (hi : Insertable h t) (k : ℤ) :
    ∃ h', TimerTree.insert (TimerTree.setKey h t k) t = some h' ∧ Holds h' (insert t P) := by
  have hne := H.nonempty
  obtain ⟨⟨x,O⟩,hobj⟩ := H
  obtain ⟨⟨h',P',used⟩,x',e,O',rfl,rfl,K⟩ := (O.setKey ht k).insert (fun _ _ => id) ht
    (fun _ _ => ⟨id,le_of_lt⟩) fun hP => hi (hne.mp hP)
  obtain ⟨⟨h'',b⟩,e',e⟩ := Option.map_eq_some_iff.mp e
  cases e
  refine ⟨h'',Option.map_eq_some_iff.mpr ⟨(h'',b),e',rfl⟩,
    ⟨x',⟨O'.tree,O'.valid,O'.sorted,O'.elements⟩⟩,fun u => ?_⟩
  rw [K.2.1]
  exact hobj u

/-- A node outside the tree may get another key. -/
theorem Holds.setKey (H : Holds h P) (ht : t ∉ P) (k : ℤ) :
    Holds (TimerTree.setKey h t k) P := by
  obtain ⟨⟨x,O⟩,hobj⟩ := H
  exact ⟨⟨x,O.setKey ht k⟩,hobj⟩

theorem Holds.min (H : Holds h P) :
    ∃ m, TimerTree.min h = some m ∧ ∀ t ∈ m, t ∈ P := by
  obtain ⟨⟨x,O⟩,hobj⟩ := H
  have hf := O.fuel
  have hmin := (Sub.extremes (show x.toList.length < enough τ by omega) O.tree.sub O.tree.root).1
  refine ⟨_,hmin,fun t ht => ?_⟩
  obtain ⟨u,hu,rfl⟩ := Option.map_eq_some_iff.mp ht
  rw [hobj]
  exact (O.elements u).mp (List.mem_of_mem_head? hu)

end tree

section clock

variable {s s' : Clock (Heap τ τ) τ} {P : Finset τ} {t : τ}

theorem start_holds (H : Holds s.tree P) (hs : Startable s.tree t) (h : s.start t = some s') :
    Holds s'.tree (insert t P) ∧ s'.phase = s.phase ∧ (s'.timer t).activated = true ∧
      ∀ u, u ≠ t → s'.timer u = s.timer u := by
  obtain ⟨tr,e,H₁⟩ := H.remove hs.1
  have hP : insert t (P.erase t) = insert t P := by
    ext u
    simp only [Finset.mem_insert,Finset.mem_erase]
    tauto
  simp only [Clock.start,e,Option.bind_eq_bind,Option.bind_some] at h
  split at h
  · obtain ⟨tr',e',h⟩ := Option.bind_eq_some_iff.mp h
    cases h
    obtain ⟨_,e'',H₂⟩ := H₁.insert (Finset.notMem_erase t P) (hs.2 tr e) _
    obtain rfl := Option.some.inj (e'.symm.trans e'')
    exact ⟨hP ▸ H₂,rfl,by simp [Clock.modify],fun u hu => by simp [Clock.modify,hu]⟩
  · cases h

theorem detach_holds (H : Holds s.tree P) (hr : Removable s.tree t) (h : s.detach t = some s') :
    ∃ tr, Holds tr (P.erase t) ∧ s' = {s with tree := tr} := by
  obtain ⟨tr,e,H₁⟩ := H.remove hr
  simp only [Clock.detach,e,Option.bind_eq_bind,Option.bind_some,Option.some.injEq] at h
  exact ⟨tr,H₁,h.symm⟩

theorem stop_holds (H : Holds s.tree P) (hr : Removable s.tree t)
    (ht : (s.timer t).activated = true) : ∃ tr, Holds tr (P.erase t) ∧
      s.stop t = some (({s with tree := tr} : Clock (Heap τ τ) τ).modify t Timer.deactivate,ERR_OK) := by
  obtain ⟨tr,e,H₁⟩ := H.remove hr
  exact ⟨tr,H₁,by simp [Clock.stop,ht,e]⟩

/-- The timer whose timeout function `round` calls was in the tree and is not any more. -/
theorem round_holds (H : Holds s.tree P)
    (hr : ∀ t, TimerTree.min s.tree = some (some t) → s.due t = true → Removable s.tree t)
    (h : s.round = some s') : s' = {s with phase := .outside} ∨
      ∃ t tr, t ∈ P ∧ Holds tr (P.erase t) ∧ s' = {s with tree := tr, phase := .callback t} := by
  obtain ⟨m,hm,hmP⟩ := H.min
  simp only [Clock.round,hm,Option.bind_eq_bind,Option.bind_some] at h
  cases m with
  | none => exact Or.inl (Option.some.inj h).symm
  | some t =>
      simp only at h
      split at h
      · next hdue =>
          obtain ⟨tr,e,H₁⟩ := H.remove (hr t hm hdue)
          simp only [e,Option.bind_some,Option.some.injEq] at h
          exact Or.inr ⟨t,tr,hmP t rfl,H₁,h.symm⟩
      · exact Or.inl (Option.some.inj h).symm

end clock

structure World (τ : Type) where
  clock : Clock (Heap τ τ) τ
  /-- The timers that have been constructed. -/
  made : Finset τ

def call (w : World τ) (c : Clock.Call τ) : Option (World τ) :=
  (w.clock.call c).map fun s => ⟨s,match c with
    | .construct t _ _ => insert t w.made
    | _ => w.made⟩

/-- A timer is constructed once and used afterwards; a timeout function may start and
stop any timer. -/
def Legal (w : World τ) : Clock.Call τ → Prop
  | .construct t _ _ => w.clock.phase = .outside ∧ t ∉ w.made
  | .detach t | .control t _ => w.clock.phase = .outside ∧ t ∈ w.made
  | .start t | .stop t => w.clock.phase ≠ .checking ∧ t ∈ w.made
  | .tickIncrease => w.clock.phase = .outside
  | .round => w.clock.phase = .checking
  | .callbackReturn => ∃ t, w.clock.phase = .callback t

/-- The calls that the tree gets are such that it works. -/
def TreeSafe (w : World τ) : Clock.Call τ → Prop
  | .detach t | .stop t => Removable w.clock.tree t
  | .start t => Startable w.clock.tree t
  | .round => ∀ t, TimerTree.min w.clock.tree = some (some t) → w.clock.due t = true →
      Removable w.clock.tree t
  | .callbackReturn => ∀ t, w.clock.phase = .callback t → (w.clock.timer t).periodic = true →
      (w.clock.timer t).activated = true → Startable w.clock.tree t
  | .construct _ _ _ | .control _ _ | .tickIncrease => True

/-- Only inactive timers are detached, and a one-shot timer is not in the tree when its
timeout function returns. -/
def FlagSafe (w : World τ) : Clock.Call τ → Prop
  | .detach t => (w.clock.timer t).activated = false
  | .callbackReturn => ∀ t, w.clock.phase = .callback t →
      w.clock.tree.tree (.node t) = false ∨ (w.clock.timer t).periodic = true
  | _ => True

/-- While no timeout function runs, the active timers are those in the tree, and `stop`
takes each of them out of it. -/
def Agrees (w : World τ) : Prop :=
  (∀ t, w.clock.phase ≠ .callback t) →
    (∀ t ∈ w.made, (w.clock.timer t).activated = true ↔ Reachable w.clock.tree t) ∧
    ∀ t, Reachable w.clock.tree t → Removable w.clock.tree t →
      ∃ s, w.clock.stop t = some (s,ERR_OK) ∧ ¬Reachable s.tree t

/-- The timer whose timeout function is running may be active outside the tree. -/
def Matches (s : Clock (Heap τ τ) τ) (made P : Finset τ) : Prop :=
  ∀ t ∈ made, (t ∈ P → (s.timer t).activated = true) ∧
    (s.phase ≠ .callback t → (s.timer t).activated = true → t ∈ P)

structure Invariant (w : World τ) (P : Finset τ) : Prop where
  holds : Holds w.clock.tree P
  made : P ⊆ w.made
  flags : Matches w.clock w.made P
  running : ∀ t, w.clock.phase = .callback t → t ∈ w.made

/-- No timer has been constructed, but their nodes are as `RbtreeNode` makes them. -/
def Start (w : World τ) : Prop :=
  Constructed w.clock.tree ∧ (∀ t, w.clock.tree.obj t = t) ∧ w.clock.phase = .outside ∧ w.made = ∅

variable {w w' : World τ} {P : Finset τ} {t : τ}

omit [DecidableEq τ] [Fintype τ] in
theorem Start.invariant (H : Start w) : Invariant w ∅ :=
  ⟨⟨⟨.nil,H.1.ordered⟩,H.2.1⟩,Finset.empty_subset _,fun t ht => by simp [H.2.2.2] at ht,
    fun t ht => by simp [H.2.2.1] at ht⟩

theorem Invariant.agrees (H : Invariant w P) : Agrees w := by
  intro hphase
  have hin : ∀ t, Reachable w.clock.tree t → (w.clock.timer t).activated = true := by
    intro t ht
    have ht := H.holds.reachable.mp ht
    exact (H.flags t (H.made ht)).1 ht
  constructor
  · intro t ht
    exact ⟨fun ha => H.holds.reachable.mpr ((H.flags t ht).2 (hphase t) ha),hin t⟩
  · intro t ht hr
    obtain ⟨tr,H₁,e⟩ := stop_holds H.holds hr (hin t ht)
    refine ⟨_,e,fun h => ?_⟩
    exact Finset.notMem_erase t P (H₁.reachable.mp h)

omit [Fintype τ] in
/-- What a call has to do for the timer `t` that it is about. -/
theorem Matches.change {s s' : Clock (Heap τ τ) τ} {made made' P P' : Finset τ} {t : τ}
    (M : Matches s made P) (hothers : ∀ u, u ≠ t → s'.timer u = s.timer u)
    (hmade : ∀ u, u ≠ t → u ∈ made' → u ∈ made) (hP : ∀ u, u ≠ t → (u ∈ P' ↔ u ∈ P))
    (hphase : ∀ u, u ≠ t → s'.phase ≠ .callback u → s.phase ≠ .callback u)
    (ht : (t ∈ P' → (s'.timer t).activated = true) ∧
      (s'.phase ≠ .callback t → (s'.timer t).activated = true → t ∈ P')) : Matches s' made' P' := by
  intro u hu
  by_cases hut : u = t
  · rwa [hut]
  · rw [hothers u hut,hP u hut]
    obtain ⟨h1,h2⟩ := M u (hmade u hut hu)
    exact ⟨h1,fun hp => h2 (hphase u hut hp)⟩

theorem Invariant.construct (H : Invariant w P) (time : BitVec 32) (flag : BitVec 8)
    (ht : t ∉ w.made) : Invariant ⟨w.clock.construct t time flag,insert t w.made⟩ P := by
  have htP : t ∉ P := fun h => ht (H.made h)
  refine ⟨H.holds.setKey htP _,fun u hu => Finset.mem_insert_of_mem (H.made hu),?_,
    fun u hu => Finset.mem_insert_of_mem (H.running u hu)⟩
  refine H.flags.change (t := t) (fun u hu => by simp [Clock.construct,hu]) ?_
    (fun _ _ => Iff.rfl) (fun _ _ h => h) ⟨fun h => absurd h htP,fun _ h => ?_⟩
  · intro u hut hu
    exact Finset.mem_of_mem_insert_of_ne hu hut
  · simp [Clock.construct] at h

omit [Fintype τ] in
/-- `detach` and `stop` take a timer out of the tree. -/
theorem Invariant.erase {s : Clock (Heap τ τ) τ} (H : Invariant w P)
    (hs : Holds s.tree (P.erase t)) (hphase : s.phase = w.clock.phase)
    (hothers : ∀ u, u ≠ t → s.timer u = w.clock.timer u)
    (ht : (s.timer t).activated = false) : Invariant ⟨s,w.made⟩ (P.erase t) := by
  refine ⟨hs,fun u hu => H.made (Finset.mem_of_mem_erase hu),?_,
    fun u hu => H.running u (hphase ▸ hu)⟩
  refine H.flags.change (t := t) hothers (fun _ _ h => h) ?_ (fun u _ h => hphase ▸ h)
    ⟨fun h => absurd h (Finset.notMem_erase t P),fun _ h => ?_⟩
  · intro u hu
    simp [Finset.mem_erase,hu]
  · simp [ht] at h

theorem Invariant.start {s : Clock (Heap τ τ) τ} (H : Invariant w P) (ht : t ∈ w.made)
    (hs : Startable w.clock.tree t) (h : w.clock.start t = some s) :
    Invariant ⟨s,w.made⟩ (insert t P) := by
  obtain ⟨hh,hphase,hact,hothers⟩ := start_holds H.holds hs h
  refine ⟨hh,Finset.insert_subset ht H.made,?_,fun u hu => H.running u (hphase ▸ hu)⟩
  refine H.flags.change (t := t) hothers (fun _ _ h => h) ?_ (fun u _ h => hphase ▸ h)
    ⟨fun _ => hact,fun _ _ => Finset.mem_insert_self t P⟩
  intro u hu
  simp [Finset.mem_insert,hu]

theorem Invariant.stop {s : Clock (Heap τ τ) τ} {e : ℤ} (H : Invariant w P)
    (hr : Removable w.clock.tree t) (h : w.clock.stop t = some (s,e)) :
    ∃ P, Invariant ⟨s,w.made⟩ P := by
  by_cases ha : (w.clock.timer t).activated = true
  · obtain ⟨tr,H₁,e₁⟩ := stop_holds H.holds hr ha
    obtain ⟨rfl,-⟩ := Prod.mk.inj (Option.some.inj (e₁.symm.trans h))
    refine ⟨_,H.erase (t := t) H₁ rfl (fun u hu => ?_) ?_⟩
    · simp [Clock.modify,hu]
    · simp [Clock.modify]
  · simp only [Clock.stop,ha,Bool.false_eq_true,↓reduceIte,Option.some.injEq,Prod.mk.injEq] at h
    exact ⟨P,h.1 ▸ H⟩

omit [Fintype τ] in
theorem Invariant.control (H : Invariant w P) (c : Timer.Control) :
    Invariant ⟨w.clock.control t c,w.made⟩ P := by
  have hact : ∀ u, ((w.clock.control t c).timer u).activated = (w.clock.timer u).activated := by
    intro u
    by_cases hu : u = t
    · subst hu
      simp [Clock.control,Clock.modify]
    · simp [Clock.control,Clock.modify,hu]
  refine ⟨H.holds,H.made,fun u hu => ?_,H.running⟩
  rw [hact]
  exact H.flags u hu

theorem Invariant.round {s : Clock (Heap τ τ) τ} (H : Invariant w P)
    (hphase : w.clock.phase = .checking) (hr : TreeSafe w .round) (h : w.clock.round = some s) :
    ∃ P, Invariant ⟨s,w.made⟩ P := by
  have hp : ∀ u, w.clock.phase ≠ .callback u := by simp [hphase]
  rcases round_holds H.holds hr h with rfl | ⟨t,tr,htP,H₁,rfl⟩
  · refine ⟨P,H.holds,H.made,fun u hu => ?_,by simp⟩
    exact ⟨(H.flags u hu).1,fun _ => (H.flags u hu).2 (hp u)⟩
  · refine ⟨P.erase t,H₁,fun u hu => H.made (Finset.mem_of_mem_erase hu),?_,
      fun u hu => Phase.callback.inj hu ▸ H.made htP⟩
    refine H.flags.change (t := t) (fun _ _ => rfl) (fun _ _ h => h) (fun u hu => ?_)
      (fun u _ _ => hp u) ⟨fun h => absurd h (Finset.notMem_erase t P),fun h => absurd rfl h⟩
    simp [Finset.mem_erase,hu]

/-- At the end of the loop body a periodic timer that is still active starts again; any
other timer loses its flag and must not be in the tree. -/
theorem Invariant.callbackReturn {s : Clock (Heap τ τ) τ} (H : Invariant w P)
    (ht : w.clock.phase = .callback t) (hr : TreeSafe w .callbackReturn)
    (hf : FlagSafe w .callbackReturn) (h : w.clock.callbackReturn t = some s) :
    ∃ P, Invariant ⟨s,w.made⟩ P := by
  have htm := H.running t ht
  have hp : ∀ u, u ≠ t → w.clock.phase ≠ .callback u := by
    intro u hu he
    exact hu (Phase.callback.inj (he.symm.trans ht))
  unfold Clock.callbackReturn at h
  dsimp only at h
  split at h
  · next hpa =>
      obtain ⟨hper,hact⟩ := Bool.and_eq_true_iff.mp hpa
      obtain ⟨hh,hphase,hact',hothers⟩ := start_holds (P := P)
        (by exact H.holds) (by exact hr t ht hper hact) h
      refine ⟨insert t P,hh,Finset.insert_subset htm H.made,?_,?_⟩
      · refine H.flags.change (t := t) ?_ (fun _ _ h => h) ?_ (fun u hu _ => hp u hu)
          ⟨fun _ => hact',fun _ _ => Finset.mem_insert_self t P⟩
        · intro u hu
          simpa [Clock.modify,hu] using hothers u hu
        · intro u hu
          simp [Finset.mem_insert,hu]
      · intro u hu
        cases hphase.symm.trans hu
  · next hpa =>
      cases h
      have htP : t ∉ P := by
        intro htP
        have hact := (H.flags t htm).1 htP
        rcases hf t ht with hn | hper
        · simp [H.holds.tree.mpr htP] at hn
        · exact hpa (by simp [hact,hper])
      refine ⟨P,H.holds,H.made,?_,by simp [Clock.modify]⟩
      refine H.flags.change (t := t) (fun u hu => by simp [Clock.modify,hu]) (fun _ _ h => h)
        (fun _ _ => Iff.rfl) (fun u hu _ => hp u hu) ⟨fun h => absurd h htP,fun _ h => ?_⟩
      simp [Clock.modify] at h

theorem Invariant.step {c : Clock.Call τ} (H : Invariant w P) (hl : Legal w c)
    (htree : TreeSafe w c) (hf : FlagSafe w c) (h : call w c = some w') :
    ∃ P, Invariant w' P := by
  obtain ⟨s,hs,rfl⟩ := Option.map_eq_some_iff.mp h
  cases c with
  | construct t time flag =>
      cases hs
      exact ⟨P,H.construct time flag hl.2⟩
  | detach t =>
      obtain ⟨tr,H₁,rfl⟩ := detach_holds H.holds htree hs
      exact ⟨_,H.erase (t := t) H₁ rfl (fun _ _ => rfl) hf⟩
  | start t => exact ⟨_,H.start hl.2 htree hs⟩
  | stop t =>
      obtain ⟨⟨s,e⟩,hstop,rfl⟩ := Option.map_eq_some_iff.mp hs
      exact H.stop htree hstop
  | control t c =>
      cases hs
      exact ⟨P,H.control c⟩
  | tickIncrease =>
      cases hs
      have hp : ∀ u, w.clock.phase ≠ .callback u := by simp [show w.clock.phase = .outside from hl]
      refine ⟨P,H.holds,H.made,fun u hu => ?_,by simp [Clock.tickIncrease]⟩
      exact ⟨(H.flags u hu).1,fun _ => (H.flags u hu).2 (hp u)⟩
  | round => exact H.round hl htree hs
  | callbackReturn =>
      obtain ⟨t,ht⟩ := hl
      simp only [Clock.call,ht] at hs
      exact H.callbackReturn ht htree hf hs

/-- Otherwise the flag and the tree disagree at once. -/
theorem Invariant.step_bad {c : Clock.Call τ} (H : Invariant w P) (hl : Legal w c)
    (htree : TreeSafe w c) (hf : ¬FlagSafe w c) (h : call w c = some w') : ¬Agrees w' := by
  obtain ⟨s,hs,rfl⟩ := Option.map_eq_some_iff.mp h
  intro ha
  cases c with
  | detach t =>
      obtain ⟨tr,H₁,rfl⟩ := detach_holds H.holds htree hs
      have hr := ((ha (by simp [hl.1])).1 t hl.2).mp (by simpa [FlagSafe] using hf)
      exact Finset.notMem_erase t P (H₁.reachable.mp hr)
  | callbackReturn =>
      obtain ⟨t,ht⟩ := hl
      simp only [Clock.call,ht] at hs
      simp only [FlagSafe,ht,Phase.callback.injEq,forall_eq',not_or] at hf
      simp only [Clock.callbackReturn,hf.2,Bool.false_and,Bool.false_eq_true,↓reduceIte,
        Option.some.injEq] at hs
      subst hs
      have htP : t ∈ P := H.holds.tree.mp (by simpa using hf.1)
      have := ((ha (by simp [Clock.modify])).1 t (H.running t ht)).mpr (H.holds.reachable.mpr htP)
      simp [Clock.modify] at this
  | construct | start | stop | control | tickIncrease | round => exact hf trivial

/-- The flags agree with the tree along a run if and only if no active timer is
detached and no one-shot timer is in the tree when its timeout function returns. -/
theorem flag_agrees_with_tree_iff {cs : List (Clock.Call τ)} (hstart : Start w)
    (hlegal : AllSteps call Legal w cs) (htree : AllSteps call TreeSafe w cs) :
    Throughout call Agrees w cs ↔
      AllSteps call (fun w c => FlagSafe w c ∨ (call w c).isNone = true) w cs :=
  throughout_iff (I := fun w => ∃ P, Invariant w P) (fun _ ⟨_,H⟩ => H.agrees)
    (fun _ _ _ ⟨_,H⟩ hl hf h => H.step hl.1 hl.2 hf h)
    (fun _ _ _ ⟨_,H⟩ hl hf h => H.step_bad hl.1 hl.2 hf h) ⟨∅,hstart.invariant⟩
    (hlegal.and htree)

instance (h : Heap τ τ) (t : τ) : Decidable (Removable h t) :=
  inferInstanceAs (Decidable (h.tree (.node t) = true → _))

instance (h : Heap τ τ) (t : τ) : Decidable (Insertable h t) :=
  inferInstanceAs (Decidable (h.root ≠ none → _))

instance (h : Heap τ τ) (t : τ) : Decidable (Startable h t) :=
  inferInstanceAs (Decidable (Removable h t ∧ _))

instance (w : World τ) : ∀ c, Decidable (Legal w c)
  | .construct t _ _ => inferInstanceAs (Decidable (w.clock.phase = .outside ∧ t ∉ w.made))
  | .detach t | .control t _ => inferInstanceAs (Decidable (w.clock.phase = .outside ∧ t ∈ w.made))
  | .start t | .stop t => inferInstanceAs (Decidable (w.clock.phase ≠ .checking ∧ t ∈ w.made))
  | .tickIncrease => inferInstanceAs (Decidable (w.clock.phase = .outside))
  | .round => inferInstanceAs (Decidable (w.clock.phase = .checking))
  | .callbackReturn => inferInstanceAs (Decidable (∃ t, w.clock.phase = .callback t))

instance (w : World τ) : ∀ c, Decidable (TreeSafe w c)
  | .detach t | .stop t => inferInstanceAs (Decidable (Removable w.clock.tree t))
  | .start t => inferInstanceAs (Decidable (Startable w.clock.tree t))
  | .round => inferInstanceAs (Decidable (∀ t, TimerTree.min w.clock.tree = some (some t) →
      w.clock.due t = true → Removable w.clock.tree t))
  | .callbackReturn => inferInstanceAs (Decidable (∀ t, w.clock.phase = .callback t →
      (w.clock.timer t).periodic = true → (w.clock.timer t).activated = true →
        Startable w.clock.tree t))
  | .construct _ _ _ | .control _ _ | .tickIncrease => .isTrue trivial

instance (w : World τ) : ∀ c, Decidable (FlagSafe w c)
  | .detach t => inferInstanceAs (Decidable ((w.clock.timer t).activated = false))
  | .callbackReturn => inferInstanceAs (Decidable (∀ t, w.clock.phase = .callback t →
      w.clock.tree.tree (.node t) = false ∨ (w.clock.timer t).periodic = true))
  | .construct _ _ _ | .start _ | .stop _ | .control _ _ | .tickIncrease | .round => .isTrue trivial

/-- Three timers that have not been constructed. -/
def threeTimers : World (Fin 3) :=
  ⟨⟨fun _ => .new 0 0,freshHeap (fun _ => 0) id,0,.outside⟩,∅⟩

theorem threeTimers_start : Start threeTimers := ⟨freshHeap_constructed _ _,fun _ => rfl,rfl,rfl⟩

/-- The timeout function of timer 1 starts timer 2, that of the periodic timer 0 stops it. -/
def orderly : List (Clock.Call (Fin 3)) :=
  [.construct 0 2 Timer.FLAG_PERIODIC,.construct 1 1 0,.construct 2 5 0,.start 0,.start 1,
    .tickIncrease,.round,.start 2,.callbackReturn,.round,.tickIncrease,.round,.stop 2,
    .callbackReturn,.round,.stop 0,.control 0 .setOneshot,.detach 0]

theorem flag_agrees_with_tree_orderly : (orderly.foldlM call threeTimers).isSome = true ∧
    Throughout call Agrees threeTimers orderly :=
  ⟨by decide +kernel,(flag_agrees_with_tree_iff threeTimers_start (by decide +kernel)
    (by decide +kernel)).mpr (by decide +kernel)⟩

/-- A one-shot timer is started by its own timeout function. -/
def restarts : List (Clock.Call (Fin 3)) :=
  [.construct 0 1 0,.start 0,.tickIncrease,.round,.start 0,.callbackReturn]

theorem restarts_in_tree_without_flag : AllSteps call Legal threeTimers restarts ∧
    AllSteps call TreeSafe threeTimers restarts ∧ ¬Throughout call Agrees threeTimers restarts := by
  refine ⟨by decide +kernel,by decide +kernel,fun h => ?_⟩
  obtain ⟨w,hw⟩ := Option.isSome_iff_exists.mp
    (show (restarts.foldlM call threeTimers).isSome = true by decide +kernel)
  have hfacts : (restarts.foldlM call threeTimers).map (fun w => (w.clock.phase,w.clock.tree.root,
      (w.clock.timer 0).activated,decide (0 ∈ w.made))) =
      some (.checking,some (.node 0),false,true) := by decide +kernel
  rw [hw] at hfacts
  simp only [Option.map_some,Option.some.injEq,Prod.mk.injEq,decide_eq_true_eq] at hfacts
  obtain ⟨hphase,hroot,hact,hmade⟩ := hfacts
  have := ((h.last hw (by simp [hphase])).1 0 hmade).mpr (.root hroot)
  simp [hact] at this

end CosKernel.TimerActivity
