import CosKernel.TimerActivity
import CosKernel.TimerTermination

/-!
# Checks over the red-black tree

As long as the tree gets only calls that it can serve, the loop of `Timer::check` over
the red-black tree of coslib takes the same timers as over the ideal bag, and so it ends
for the same timers.
-/
namespace CosKernel.TimerTermination
open RedBlackHeap RedBlackZipper TimerActivity TimerExpiry

variable {τ : Type} [DecidableEq τ]

abbrev TreeClock (τ : Type) := Clock (Heap τ τ) τ

/-- The tree holds the timers of the bag in their order. -/
structure Shows (h : Heap τ τ) (b : OrderedBag τ) : Prop where
  tree : ∃ x, IsTree h x ∧ Valid x ∧ x.toList = b.items
  sorted : b.Sorted
  key : ∀ t, h.key (.node t) = b.key t
  obj : ∀ t, h.obj t = t

/-- The clock with the ideal bag in the place of its tree. -/
structure Models (s : TreeClock τ) (b : BagClock τ) : Prop where
  timer : s.timer = b.timer
  tick : s.tick = b.tick
  phase : s.phase = b.phase
  tree : Shows s.tree b.tree

variable [Fintype τ]

/-- The tree can serve the calls of one round of the loop. -/
def SafeTurn (s : TreeClock τ) : Prop :=
  TreeSafe ⟨s,∅⟩ .round ∧ ∀ u ∈ s.round, TreeSafe ⟨u,∅⟩ .callbackReturn

/-- The same for the first rounds of the loop. -/
def SafeLoop : ℕ → TreeClock τ → Prop
  | 0,_ => True
  | n+1,s => SafeTurn s ∧
      ∀ u ∈ s.round, ∀ t, u.phase = .callback t → ∀ v ∈ u.callbackReturn t, SafeLoop n v

section tree

variable {h : Heap τ τ} {bag : OrderedBag τ} {t : τ}

omit [DecidableEq τ] in
theorem Shows.fuel {x : ColorTree τ} (hx : IsTree h x) : 2*x.toList.length+4 ≤ enough τ := by
  have hlen := hx.nodup.length_le_card
  unfold enough
  omega

omit [DecidableEq τ] [Fintype τ] in
theorem Shows.keys_le (H : Shows h bag) :
    bag.items.Pairwise fun a b => h.key (.node a) ≤ h.key (.node b) := by
  simp only [H.key]
  exact H.sorted

theorem Shows.min (H : Shows h bag) : TimerTree.min h = some bag.items.head? := by
  obtain ⟨x,hx,-,hitems⟩ := H.tree
  have hfuel := Shows.fuel hx
  have hmin := (Sub.extremes (show x.toList.length < enough τ by omega) hx.sub hx.root).1
  refine hmin.trans ?_
  rw [hitems,show h.obj = id from funext H.obj,Option.map_id,id]

theorem Shows.remove (H : Shows h bag) (hr : Removable h t) :
    ∃ h', TimerTree.remove h t = some h' ∧ Shows h' (bag.remove t) := by
  obtain ⟨x,hx,hv,hitems⟩ := H.tree
  have hfuel := Shows.fuel hx
  by_cases ht : t ∈ x.toList
  · obtain ⟨h',x',e,hx',hv',hlist,K⟩ := hx.remove (show x.toList.length+4 ≤ enough τ by omega) hv
      (hitems ▸ H.keys_le) ht (hr (hx.owned t ht))
    refine ⟨h',by simp [TimerTree.remove,e],⟨x',hx',hv',?_⟩,H.sorted.remove t,fun u => ?_,
      fun u => ?_⟩
    · rw [hlist,hitems]
      rfl
    · rw [K.1]
      exact H.key u
    · rw [K.2.1]
      exact H.obj u
  · have hout : h.tree (.node t) = false := (hx.loose t ht).2.2
    have hsame : bag.remove t = bag := by
      simp [OrderedBag.remove,List.erase_of_not_mem (hitems ▸ ht)]
    exact ⟨h,by simp [TimerTree.remove,Heap.remove,hout],hsame.symm ▸ H⟩

/-- A node outside the tree may get another key. -/
theorem Shows.setKey (H : Shows h bag) (ht : t ∉ bag.items) (k : ℤ) :
    Shows (TimerTree.setKey h t k) (bag.setKey t k) := by
  obtain ⟨x,hx,hv,hitems⟩ := H.tree
  refine ⟨⟨x,⟨hx.sub.congr fun _ _ => ⟨rfl,rfl,rfl⟩,hx.nodup,hx.root,hx.owned,hx.loose,
    hx.sentinel⟩,hv,hitems⟩,H.sorted.setKey ht k,fun u => ?_,H.obj⟩
  by_cases hu : u = t
  · subst hu
    simp [TimerTree.setKey,Heap.setKey,OrderedBag.setKey]
  · simpa [TimerTree.setKey,Heap.setKey,OrderedBag.setKey,hu] using H.key u

theorem Shows.insert (H : Shows h bag) (ht : t ∉ bag.items) (hi : Insertable h t) :
    ∃ h', TimerTree.insert h t = some h' ∧ Shows h' (bag.insert t) := by
  obtain ⟨x,hx,hv,hitems⟩ := H.tree
  have hfuel := Shows.fuel hx
  have hred : x ≠ .nil → h.color (.node t) = .red := fun hne => hi <| by
    rw [hx.root,rootRef_eq_some hne]
    exact Option.some_ne_none _
  obtain ⟨h',x',l,r,e,hx',hv',hlr,hsplit,hlist,K⟩ := hx.insert
    (show 2*x.toList.length < enough τ by omega) hv (hitems ▸ ht) (hitems ▸ H.keys_le) hred
  have hplace : OrderedBag.place bag.key t (l++r) = l++t::r := by
    refine OrderedBag.place_append (fun b hb => ?_) fun b hb => ?_
    · simpa only [H.key] using hsplit.1 b hb
    · simpa only [H.key] using hsplit.2 b hb
  refine ⟨h',by simp [TimerTree.insert,e],⟨x',hx',hv',?_⟩,H.sorted.insert t,fun u => ?_,
    fun u => ?_⟩
  · rw [hlist,← hplace,← hlr,hitems]
    rfl
  · rw [K.1]
    exact H.key u
  · rw [K.2.1]
    exact H.obj u

end tree

section clock

variable {s s' : TreeClock τ} {b b' : BagClock τ} {t : τ}

theorem Models.round (M : Models s b) (hsafe : TreeSafe ⟨s,∅⟩ .round) :
    ∃ s' b', s.round = some s' ∧ b.round = some b' ∧ Models s' b' := by
  have hdue : ∀ t, s.due t = b.due t := fun t => by simp [Clock.due,M.timer,M.tick]
  have hmin : TimerTree.min b.tree = some b.tree.items.head? := rfl
  cases hhead : b.tree.items.head? with
  | none =>
      refine ⟨{s with phase := .outside},{b with phase := .outside},?_,?_,M.timer,M.tick,rfl,M.tree⟩
      · simp [Clock.round,M.tree.min,hhead]
      · simp [Clock.round,hmin,hhead]
  | some t =>
      cases hd : b.due t with
      | false =>
          refine ⟨{s with phase := .outside},{b with phase := .outside},?_,?_,M.timer,M.tick,rfl,
            M.tree⟩
          · simp [Clock.round,M.tree.min,hhead,hdue,hd]
          · simp [Clock.round,hmin,hhead,hd]
      | true =>
          have hremovable : Removable s.tree t :=
            hsafe t (M.tree.min.trans (congrArg some hhead)) ((hdue t).trans hd)
          obtain ⟨h',hremove,H'⟩ := M.tree.remove hremovable
          refine ⟨{s with tree := h', phase := .callback t},
            {b with tree := b.tree.remove t, phase := .callback t},?_,?_,M.timer,M.tick,rfl,H'⟩
          · simp [Clock.round,M.tree.min,hhead,hdue,hd,hremove]
          · simp [Clock.round,hmin,hhead,hd,TimerTree.remove]

omit [Fintype τ] in
theorem Models.modify (M : Models s b) (t : τ) (g : Timer → Timer) :
    Models (s.modify t g) (b.modify t g) := by
  refine ⟨?_,M.tick,M.phase,M.tree⟩
  simp only [Clock.modify,M.timer]

omit [DecidableEq τ] [Fintype τ] in
theorem Models.checking (M : Models s b) :
    Models ({s with phase := .checking} : TreeClock τ) {b with phase := .checking} :=
  ⟨M.timer,M.tick,rfl,M.tree⟩

omit [Fintype τ] in
theorem Shows.notMem_remove {h : Heap τ τ} {bag : OrderedBag τ} (H : Shows h bag) :
    t ∉ (bag.remove t).items := by
  obtain ⟨x,hx,-,hitems⟩ := H.tree
  exact (hitems ▸ hx.nodup).not_mem_erase

omit [Fintype τ] in
/-- What `start` does, whatever the tree is. -/
theorem start_def {σ : Type} [TimerTree σ τ] (s : Clock σ τ) (t : τ) :
    s.start t = (TimerTree.remove s.tree t).bind fun tree =>
      if (s.timer t).initTick.toNat < TICK_MAX/2 then
        (TimerTree.insert (TimerTree.setKey tree t
          (Timer.key (s.tick+(s.timer t).initTick))) t).map fun tree =>
            {s with
              timer := Function.update s.timer t (Timer.activate {(s.timer t).deactivate with
                timeoutTick := s.tick+(s.timer t).initTick})
              tree := tree}
      else none := by
  simp only [Clock.start,Clock.modify,Option.bind_eq_bind,Function.update_self,
    Function.update_idem,Timer.deactivate,Timer.activate]
  congr 1
  funext tree
  split_ifs
  · cases TimerTree.insert (TimerTree.setKey tree t
      (Timer.key (s.tick+(s.timer t).initTick))) t <;> rfl
  · rfl

theorem Models.start (M : Models s b) (hs : Startable s.tree t) :
    (s.start t = none ∧ b.start t = none) ∨
      ∃ s' b', s.start t = some s' ∧ b.start t = some b' ∧ Models s' b' := by
  obtain ⟨h₁,hremove,H₁⟩ := M.tree.remove hs.1
  have hremove' : TimerTree.remove b.tree t = some (b.tree.remove t) := rfl
  have hout : t ∉ (b.tree.remove t).items := M.tree.notMem_remove
  rw [start_def,start_def,hremove,hremove',M.timer,M.tick,Option.bind_some,Option.bind_some]
  split_ifs with hinit
  · obtain ⟨h₂,hinsert,H₂⟩ := (H₁.setKey hout (Timer.key (b.tick+(b.timer t).initTick))).insert
      hout (hs.2 h₁ hremove)
    rw [hinsert]
    exact .inr ⟨_,_,rfl,rfl,rfl,rfl,M.phase,H₂⟩
  · exact .inl ⟨rfl,rfl⟩

theorem Models.callbackReturn (M : Models s b) (hphase : s.phase = .callback t)
    (hsafe : TreeSafe ⟨s,∅⟩ .callbackReturn) :
    (s.callbackReturn t = none ∧ b.callbackReturn t = none) ∨
      ∃ s' b', s.callbackReturn t = some s' ∧ b.callbackReturn t = some b' ∧ Models s' b' := by
  have hiff : ((s.timer t).periodic && (s.timer t).activated) =
      ((b.timer t).periodic && (b.timer t).activated) := by rw [M.timer]
  simp only [Clock.callbackReturn,hiff]
  split_ifs with hagain
  · rw [← hiff,Bool.and_eq_true] at hagain
    exact (M.checking.modify t Timer.deactivate).start (hsafe t hphase hagain.1 hagain.2)
  · exact .inr ⟨_,_,rfl,rfl,M.checking.modify t Timer.deactivate⟩

/-- Both loops end after the same number of rounds. -/
theorem Models.checkLoop (M : Models s b) {n : ℕ} (hsafe : SafeLoop n s) :
    (Clock.checkLoop n s).isSome = (Clock.checkLoop n b).isSome := by
  induction n generalizing s b with
  | zero => rfl
  | succ n ih =>
      obtain ⟨hturn,hnext⟩ := hsafe
      obtain ⟨s₁,b₁,hs,hb,M₁⟩ := M.round hturn.1
      simp only [Clock.checkLoop,hs,hb,Option.bind_eq_bind,Option.bind_some]
      rw [← M₁.phase]
      cases hphase : s₁.phase with
      | outside => rfl
      | checking => rfl
      | callback t =>
          obtain ⟨hs₂,hb₂⟩ | ⟨s₂,b₂,hs₂,hb₂,M₂⟩ := M₁.callbackReturn hphase (hturn.2 s₁ hs)
          · simp [hs₂,hb₂]
          · simp only [hs₂,hb₂,Option.bind_some]
            exact ih M₂ (hnext s₁ hs t hphase s₂ hs₂)

end clock

omit [Fintype τ] in
/-- A check over the ideal bag ends just when its loop is not stuck. -/
theorem bag_check_ends_iff {b : BagClock τ} (H : Armed b) :
    (∃ n b', b.check n = some b') ↔ ¬Stuck b b.tree.items := by
  have H' : Armed ({b with phase := .checking} : BagClock τ) :=
    ⟨H.nodup,H.sorted,H.keys,H.active,H.accepted⟩
  refine ⟨?_,fun hs => checkLoop_ends H' hs⟩
  rintro ⟨n,b',hb'⟩ hs
  cases (checkLoop_stuck H' hs n).symm.trans hb'

/-- The tree of the clock holds the active timers `ts` in the order of their keys, and no
assertion keeps a periodic one from starting again. -/
structure Loaded (s : TreeClock τ) (ts : List τ) : Prop where
  tree : ∃ x, IsTree s.tree x ∧ Valid x ∧ x.toList = ts
  obj : ∀ t, s.tree.obj t = t
  keys : ∀ t ∈ ts, s.tree.key (.node t) = keyOf s t
  sorted : ts.Pairwise fun a b => keyOf s a ≤ keyOf s b
  active : ∀ t ∈ ts, (s.timer t).activated = true
  accepted : ∀ t ∈ ts, (s.timer t).periodic = true → (s.timer t).initTick.toNat < TICK_MAX/2

/-- The ideal bag with the timers `ts` for the tree of the clock. -/
def bagged (s : TreeClock τ) (ts : List τ) : BagClock τ :=
  ⟨s.timer,⟨fun t => s.tree.key (.node t),ts⟩,s.tick,s.phase⟩

section loaded

variable {s : TreeClock τ} {b : BagClock τ} {ts : List τ}

omit [DecidableEq τ] [Fintype τ] in
theorem Loaded.armed (H : Loaded s ts) : Armed (bagged s ts) := by
  obtain ⟨x,hx,-,rfl⟩ := H.tree
  refine ⟨hx.nodup,H.sorted.imp_of_mem fun {a b} ha hb hle => ?_,H.keys,H.active,H.accepted⟩
  change s.tree.key (.node a) ≤ s.tree.key (.node b)
  rwa [H.keys a ha,H.keys b hb]

omit [DecidableEq τ] [Fintype τ] in
theorem Loaded.models (H : Loaded s ts) : Models s (bagged s ts) :=
  ⟨rfl,rfl,rfl,H.tree,H.armed.sorted,fun _ => rfl,H.obj⟩

omit [DecidableEq τ] [Fintype τ] in
theorem Models.loaded (M : Models s b) (H : Armed b) : Loaded s b.tree.items := by
  have hkey : ∀ t ∈ b.tree.items, b.tree.key t = keyOf s t := fun t ht => by
    rw [H.keys t ht,keyOf,M.timer]
  refine ⟨M.tree.tree,M.tree.obj,fun t ht => (M.tree.key t).trans (hkey t ht),
    H.sorted.imp_of_mem fun ha hb hle => ?_,M.timer ▸ H.active,M.timer ▸ H.accepted⟩
  rwa [hkey _ ha,hkey _ hb] at hle

theorem Models.check (M : Models s b) {n : ℕ} (hsafe : SafeLoop n {s with phase := .checking}) :
    (s.check n).isSome = (b.check n).isSome := M.checking.checkLoop hsafe

end loaded

/-- The rounds after the end of a loop need nothing. -/
theorem safeLoop_of_ends {s s' : TreeClock τ} {n : ℕ} (hs : SafeLoop n s)
    (hend : Clock.checkLoop n s = some s') (m : ℕ) : SafeLoop m s := by
  induction n generalizing s m with
  | zero => cases hend
  | succ n ih =>
      cases m with
      | zero => trivial
      | succ m =>
          refine ⟨hs.1,fun u hu t ht v hv => ih (hs.2 u hu t ht v hv) ?_ m⟩
          simpa [Clock.checkLoop,Option.mem_def.mp hu,ht,Option.mem_def.mp hv] using hend

instance (s : TreeClock τ) : Decidable (SafeTurn s) := inferInstanceAs (Decidable (_ ∧ _))

instance SafeLoop.decidable : ∀ n (s : TreeClock τ), Decidable (SafeLoop n s)
  | 0,_ => .isTrue trivial
  | n+1,s =>
      have : ∀ v : TreeClock τ, Decidable (SafeLoop n v) := SafeLoop.decidable n
      inferInstanceAs (Decidable (SafeTurn s ∧
        ∀ u ∈ s.round, ∀ t, u.phase = .callback t → ∀ v ∈ u.callbackReturn t, SafeLoop n v))

section decidable

variable {σ : Type}

instance (s : Clock σ τ) (z : τ) : Decidable (Restless s z) := inferInstanceAs (Decidable (_ ∧ _))

instance (s : Clock σ τ) (ts : List τ) (z : τ) : Decidable (Passed s ts z) :=
  inferInstanceAs (Decidable (∀ a ∈ ts, _ → _))

instance (s : Clock σ τ) (ts : List τ) : Decidable (Stuck s ts) :=
  inferInstanceAs (Decidable (∃ z ∈ ts, _))

end decidable

omit [DecidableEq τ] [Fintype τ] in
theorem models_fresh (timer : τ → Timer) (tick : BitVec 32) :
    Models ⟨timer,freshHeap (fun _ => 0) id,tick,.outside⟩ ⟨timer,⟨fun _ => 0,[]⟩,tick,.outside⟩ := by
  have hempty : Ordered (fun _ _ => True) (Life.start (freshHeap (fun _ : τ => 0) id)) .nil :=
    (freshHeap_constructed _ _).ordered
  exact ⟨rfl,rfl,rfl,⟨.nil,hempty.tree,hempty.valid,rfl⟩,List.Pairwise.nil,fun _ => rfl,fun _ => rfl⟩

/-- A one-shot timer of 100 ticks and a periodic timer of 5 ticks are started at the tick 1000. -/
def twoStarted {σ : Type} [TimerTree σ (Fin 2)] (tree : σ) : Clock σ (Fin 2) :=
  let s : Clock σ (Fin 2) := ⟨twoTimers,tree,1000,.outside⟩
  {((s.start 1).bind fun s => s.start 0).getD s with tick := 1005}

def bagOfTwo : BagClock (Fin 2) := twoStarted ⟨fun _ => 0,[]⟩

def treeOfTwo : TreeClock (Fin 2) := twoStarted (freshHeap (fun _ => 0) id)

theorem models_treeOfTwo : Models treeOfTwo bagOfTwo := by
  have M₀ := models_fresh twoTimers 1000
  obtain ⟨hnone,-⟩ | ⟨s₁,b₁,hs₁,hb₁,M₁⟩ := M₀.start (t := 1) (by decide +kernel)
  · exact absurd (congrArg Option.isSome hnone) (by decide +kernel)
  have hstart : ∀ u ∈ Clock.start (⟨twoTimers,freshHeap (fun _ => 0) id,1000,.outside⟩ :
      TreeClock (Fin 2)) 1, Startable u.tree 0 ∧ (u.start 0).isSome = true := by decide +kernel
  obtain ⟨hstartable,hsome⟩ := hstart s₁ hs₁
  obtain ⟨hnone,-⟩ | ⟨s₂,b₂,hs₂,hb₂,M₂⟩ := M₁.start hstartable
  · rw [hnone] at hsome
    cases hsome
  · simp only [treeOfTwo,bagOfTwo,twoStarted,hs₁,hs₂,hb₁,hb₂,Option.bind_some,Option.getD_some]
    exact ⟨M₂.timer,rfl,M₂.phase,M₂.tree⟩

theorem armed_bagOfTwo : Armed bagOfTwo :=
  ⟨by decide +kernel,by unfold OrderedBag.Sorted; decide +kernel,by decide +kernel,
    by decide +kernel,by decide +kernel⟩

section single

variable [Subsingleton τ] {h : Heap τ τ} {bag : OrderedBag τ} {s : TreeClock τ} {b : BagClock τ}
  {t : τ}

omit [Fintype τ] [DecidableEq τ] in
theorem Shows.increasing (H : Shows h bag) :
    bag.items.Pairwise fun a b => h.key (.node a) < h.key (.node b) := by
  obtain ⟨x,hx,-,hitems⟩ := H.tree
  rw [← hitems]
  exact hx.nodup.imp fun hne => absurd (Subsingleton.elim _ _) hne

/-- A tree without a second timer can serve every call. -/
theorem Shows.startable (H : Shows h bag) : Startable h t := by
  have hremovable : Removable h t := by
    intro ht
    obtain ⟨x,hx,-,hitems⟩ := H.tree
    have hfuel := Shows.fuel hx
    have hmem : t ∈ x.toList := by
      by_contra hout
      rw [(hx.loose t hout).2.2] at ht
      cases ht
    exact hx.standing.sidesKept (show x.toList.length < enough τ by omega) (hitems ▸ H.increasing)
      hmem
  refine ⟨hremovable,fun h' hremove hroot => ?_⟩
  obtain ⟨_,e,H'⟩ := H.remove hremovable
  obtain rfl := Option.some.inj ((Option.mem_def.mp hremove).symm.trans e)
  obtain ⟨x,hx,-,hitems⟩ := H'.tree
  have hout : t ∉ x.toList := hitems ▸ H.notMem_remove
  cases x with
  | nil => exact absurd hx.root hroot
  | node c l a r => exact absurd (by simp [ColorTree.toList,Subsingleton.elim t a]) hout

theorem Models.safeLoop (M : Models s b) (n : ℕ) : SafeLoop n s := by
  induction n generalizing s b with
  | zero => trivial
  | succ n ih =>
      have hround : TreeSafe ⟨s,∅⟩ .round := fun _ _ _ => M.tree.startable.1
      obtain ⟨s₁,b₁,hs,-,M₁⟩ := M.round hround
      have hreturn : TreeSafe ⟨s₁,∅⟩ .callbackReturn := fun _ _ _ _ => M₁.tree.startable
      refine ⟨⟨hround,fun u hu => ?_⟩,fun u hu t ht v hv => ?_⟩
      · obtain rfl := Option.some.inj (hs.symm.trans hu)
        exact hreturn
      · obtain rfl := Option.some.inj (hs.symm.trans hu)
        obtain ⟨hnone,-⟩ | ⟨s₂,b₂,hs₂,-,M₂⟩ := M₁.callbackReturn ht hreturn
        · rw [hnone] at hv
          cases hv
        · obtain rfl := Option.some.inj (hs₂.symm.trans hv)
          exact ih M₂

end single

/-- A periodic timer without a period is started at the tick 7. -/
def startedAtOnce {σ : Type} [TimerTree σ (Fin 1)] (tree : σ) : Clock σ (Fin 1) :=
  let s : Clock σ (Fin 1) := ⟨fun _ => .new 0 Timer.FLAG_PERIODIC,tree,7,.outside⟩
  (s.start 0).getD s

def endless : TreeClock (Fin 1) := startedAtOnce (freshHeap (fun _ => 0) id)

end CosKernel.TimerTermination
