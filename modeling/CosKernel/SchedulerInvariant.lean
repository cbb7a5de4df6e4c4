import CosKernel.ReadyQueues

/-!
# Runs of the scheduler

Threads are started, suspended, resumed, put to sleep, woken by their timers and
given other priorities, in any order. The ready lists then hold the ready
threads and `next_thread` picks the first one of the most urgent list, as long
as every `insert_thread` is clean in the sense of `EntersClean`. Neither
`push_back` nor `insert` establishes that by itself: both rely on fields that
`erase` and `remove` leave behind.
-/
namespace CosKernel.Scheduler
open RedBlackZipper RedBlackHeap IntrusiveList TransitionRuns

inductive Call (θ : Type) where
  | startup (t : θ)
  | start
  | suspend (t : θ)
  | resume (t : θ)
  | sleep (tick : ℕ)
  | sleepReturn (t : θ)
  | expire (t : θ)
  | changePriority (t : θ) (p : Priority)
  | inclock
  deriving DecidableEq, Repr

variable {σ ο θ : Type} [DecidableEq ο] [DecidableEq θ]

def call [ListFamily σ (ListId ο) θ] (k : Kernel σ θ) : Call θ → Option (Kernel σ θ)
  | .startup t => k.startup t
  | .start => k.start
  | .suspend t => (k.suspend t).map Prod.fst
  | .resume t => (k.resume t).map Prod.fst
  | .sleep tick => k.sleep tick
  | .sleepReturn t => some (k.sleepReturn t)
  | .expire t => k.expire t
  | .changePriority t p => k.changePriority t p
  | .inclock => k.inclock

/-- Threads are started once, scheduling starts with a ready idle thread, which
is never suspended, only the thread that is selected to run sleeps, and only
armed timers expire. -/
def Legal (idle : θ) (k : PointerKernel ο θ) : Call θ → Prop
  | .startup t => (k.thread t).stat = .init
  | .start => (k.thread idle).stat = .ready
  | .suspend t => t ≠ idle
  | .sleep tick => tick < TICK_MAX/2 ∧ k.currentThread ≠ some idle ∧ k.currentThread ≠ none ∧
      k.nextThread = some k.currentThread
  | .expire t => (k.thread t).timerActive = true
  | _ => True

/-- Every `insert_thread` of the call is clean. -/
def Clean (k : PointerKernel ο θ) : Call θ → Prop
  | .startup t => EntersClean (k.modify t fun x => {x with currentPriority := x.initPriority}) t
  | .resume t => (k.thread t).stat = .suspend → EntersClean k t
  | .expire t => EntersClean k t
  | .changePriority t p => (k.thread t).stat = .ready → ∀ k' ∈ k.removeThread t,
      EntersClean (k'.modify t fun x => {x with currentPriority := p}) t
  | _ => True

instance (idle : θ) (k : PointerKernel ο θ) : ∀ c, Decidable (Legal idle k c)
  | .startup t => inferInstanceAs (Decidable ((k.thread t).stat = .init))
  | .start => inferInstanceAs (Decidable ((k.thread idle).stat = .ready))
  | .suspend t => inferInstanceAs (Decidable (t ≠ idle))
  | .sleep tick => inferInstanceAs (Decidable (tick < TICK_MAX/2 ∧ k.currentThread ≠ some idle ∧
      k.currentThread ≠ none ∧ k.nextThread = some k.currentThread))
  | .expire t => inferInstanceAs (Decidable ((k.thread t).timerActive = true))
  | .resume _ | .sleepReturn _ | .changePriority _ _ | .inclock => .isTrue trivial

instance (k : PointerKernel ο θ) : ∀ c, Decidable (Clean k c)
  | .startup t => inferInstanceAs (Decidable (EntersClean _ t))
  | .resume t => inferInstanceAs (Decidable ((k.thread t).stat = .suspend → EntersClean k t))
  | .expire t => inferInstanceAs (Decidable (EntersClean k t))
  | .changePriority t p => inferInstanceAs (Decidable ((k.thread t).stat = .ready →
      ∀ k' ∈ k.removeThread t, EntersClean (k'.modify t fun x => {x with currentPriority := p}) t))
  | .start | .suspend _ | .sleep _ | .sleepReturn _ | .inclock => .isTrue trivial

/-- The kernel after `Scheduler::init`, with threads that are all new. -/
structure Initialized (k : PointerKernel ο θ) : Prop where
  lists : IntrusiveList.Constructed k.lists
  values : ∀ t, (k.lists.node t).value = t
  tree : RedBlackHeap.Constructed k.priorityTree
  obj : ∀ p, k.priorityTree.obj p = p
  key : ∀ p, k.priorityTree.key (.node p) = p.val
  current : k.currentThread = none
  stat : ∀ t, (k.thread t).stat = .init
  timers : ∀ t, (k.thread t).timerActive = false

/-- The ready lists hold the ready threads, the tree the nodes of the lists in
use, and the selected thread is the first one of the most urgent list. -/
structure Selects (k : PointerKernel ο θ) : Prop where
  walk : ∀ p, ∃ xs, (∀ fuel ≥ xs.length,
      k.lists.walk fuel (k.lists.begin (.ready p)) = some xs) ∧ xs.Nodup ∧
    ∀ t, t ∈ xs ↔ (k.thread t).stat = .ready ∧ (k.thread t).currentPriority = p
  tree : ∃ t, k.priorityTree.root = rootRef t ∧ Links k.priorityTree t ∧
    ∀ p, p ∈ t.toList ↔ k.lists.empty (.ready p) = false
  next : ∀ p, k.lists.empty (.ready p) = false →
    (∀ q < p, k.lists.empty (.ready q) = true) →
    k.nextThread = some (k.lists.front (.ready p))
  runnable : ∀ t, k.nextThread = some (some t) → (k.thread t).stat = .ready

/-- The lists stand for `f`, and membership agrees with the fields of the threads.
`D` is the defunct list, and the threads in `E` have exited. -/
structure Invariant (idle : θ) (D E : List θ) (k : PointerKernel ο θ) (f : ListId ο → List θ) :
    Prop where
  queues : ReadyQueues k.lists k.priorityTree f
  ready : ∀ t p, t ∈ f (.ready p) ↔ (k.thread t).stat = .ready ∧ (k.thread t).currentPriority = p
  other : ∀ l t, t ∈ f l → (∃ p, l = .ready p) ∨ l = .defunct ∧ (k.thread t).stat = .close
  timers : ∀ t, (k.thread t).timerActive = true →
    (k.thread t).stat = .suspend ∧ k.currentThread ≠ none
  idle : k.currentThread ≠ none → (k.thread idle).stat = .ready
  defunct : f .defunct = D
  closed : ∀ t ∈ E, (k.thread t).stat = .close

variable {idle t : θ} {D E : List θ} {k : PointerKernel ο θ} {f : ListId ο → List θ}

omit [DecidableEq ο] [DecidableEq θ] in
theorem Initialized.invariant (h : Initialized k) (idle : θ) : Invariant idle [] [] k fun _ => [] where
  queues := ⟨h.lists.represents,h.values,∅,Priorities.of_constructed h.tree h.obj h.key,by simp⟩
  ready t p := by simp [h.stat]
  other l t ht := by simp at ht
  timers t ht := by simp [h.timers] at ht
  idle hc := absurd h.current hc
  defunct := rfl
  closed := by simp

namespace Invariant

theorem selects (H : Invariant idle D E k f) : Selects k := by
  have hobs := fun p => (H.queues.lists.chained (.ready p)).observed
  have hemp : ∀ p, k.lists.empty (.ready p) = (f (.ready p)).isEmpty :=
    fun p => (hobs p).empty
  refine ⟨fun p => ⟨f (.ready p),?_,H.queues.lists.nodup _,fun t => H.ready t p⟩,?_,?_,?_⟩
  · exact (hobs p).walk
  · obtain ⟨X,⟨-,-,u,t,ht⟩,hX⟩ := H.queues.tree
    exact ⟨t,ht.tree.root,ht.tree.sub.links,fun p => by
      rw [ht.elements,hX,hemp]; simp⟩
  · intro p hp hq
    simp only [hemp] at hp hq
    rw [nextThread_spec H.queues (p := p) (by simpa using hp) (by simpa using hq)]
    exact congrArg some (H.queues.front_eq _).symm
  · intro t ht
    obtain ⟨p,us,hp⟩ := head_of_nextThread H.queues ht
    exact ((H.ready t p).mp (by simp [hp])).1

omit [DecidableEq ο] in
/-- One thread gets other fields and other places, the rest stays. -/
theorem replace {k' : PointerKernel ο θ} {g : ListId ο → List θ} {x : Thread} {D' E' : List θ}
    (H : Invariant idle D E k f) (hq : ReadyQueues k'.lists k'.priorityTree g)
    (hthread : k'.thread = Function.update k.thread t x)
    (hcur : k'.currentThread = none ↔ k.currentThread = none)
    (hothers : ∀ l u, u ≠ t → (u ∈ g l ↔ u ∈ f l))
    (hready : ∀ p, t ∈ g (.ready p) ↔ x.stat = .ready ∧ x.currentPriority = p)
    (hother : ∀ l, t ∈ g l → (∃ p, l = .ready p) ∨ l = .defunct ∧ x.stat = .close)
    (htimer : x.timerActive = true → x.stat = .suspend ∧ k.currentThread ≠ none)
    (hidle : t = idle → k.currentThread ≠ none → x.stat = .ready)
    (hdef : g .defunct = D') (hE : ∀ u ∈ E', u ≠ t → u ∈ E) (hclosed : t ∈ E' → x.stat = .close) :
    Invariant idle D' E' k' g where
  queues := hq
  ready u p := by
    by_cases hu : u = t
    · subst hu; simpa [hthread] using hready p
    · simpa [hthread,hu,hothers _ u hu] using H.ready u p
  other l u := by
    by_cases hu : u = t
    · subst hu; simpa [hthread] using hother l
    · simpa [hthread,hu,hothers _ u hu] using H.other l u
  timers u := by
    rw [ne_eq,hcur]
    by_cases hu : u = t
    · subst hu; simpa [hthread] using htimer
    · simpa [hthread,hu] using H.timers u
  idle := by
    rw [ne_eq,hcur]
    by_cases hu : t = idle
    · subst hu; simpa [hthread] using hidle rfl
    · simpa [hthread,Ne.symm hu] using H.idle
  defunct := hdef
  closed u hu := by
    by_cases hut : u = t
    · subst hut; simpa [hthread] using hclosed hu
    · simpa [hthread,hut] using H.closed u (hE u hu hut)

omit [DecidableEq ο] [DecidableEq θ] in
theorem notMem (H : Invariant idle D E k f) (hr : (k.thread t).stat ≠ .ready)
    (hc : (k.thread t).stat ≠ .close) (l : ListId ο) : t ∉ f l := by
  intro hl
  rcases H.other l t hl with ⟨p,rfl⟩ | ⟨-,h⟩
  · exact hr ((H.ready t p).mp hl).1
  · exact hc h

/-- A thread outside all lists becomes ready. -/
theorem enter (H : Invariant idle D E k f) (g : Thread → Thread)
    (hr : (k.thread t).stat ≠ .ready) (hc : (k.thread t).stat ≠ .close)
    (hclean : EntersClean (k.modify t g) t) :
    ∃ s h f', (k.modify t g).insertThread t = some ⟨s,h,
        Function.update k.thread t {g (k.thread t) with stat := .ready},k.currentThread,k.lockNest⟩ ∧
      ReadyQueues s h f' ∧ t ∈ f' (.ready (g (k.thread t)).currentPriority) ∧
      ∀ x c n, (c = none ↔ k.currentThread = none) → x.stat = .ready →
        x.currentPriority = (g (k.thread t)).currentPriority → x.timerActive = false →
        Invariant idle D E ⟨s,h,Function.update k.thread t x,c,n⟩ f' := by
  have hout := H.notMem hr hc
  obtain ⟨s,h,e,hq⟩ := insertThread_spec (k := k.modify t g) (t := t) H.queues hout hclean
  have hp : ((k.modify t g).thread t).currentPriority = (g (k.thread t)).currentPriority := by
    simp [Kernel.modify]
  rw [hp] at hq
  refine ⟨s,h,_,by simpa [Kernel.modify] using e,hq,by simp [mem_pushBack],?_⟩
  intro x c n hcur hx hxp hxt
  refine H.replace hq rfl hcur (fun l u hu => by simp [mem_pushBack,hu]) (fun q => ?_)
    (fun l hl => ?_) (by simp [hxt]) (fun _ _ => hx)
    (by simpa [sequenceCall] using H.defunct) (fun _ hu _ => hu) fun h => absurd (H.closed t h) hc
  · simp [mem_pushBack,hout,hx,hxp,eq_comm]
  · simp only [mem_pushBack,hout,false_or] at hl
    exact Or.inl ⟨_,hl.1⟩

omit [DecidableEq ο] [DecidableEq θ] in
theorem mem_iff (H : Invariant idle D E k f) (ht : (k.thread t).stat = .ready) (l : ListId ο) :
    t ∈ f l ↔ l = .ready (k.thread t).currentPriority := by
  refine ⟨fun hl => ?_,fun hl => hl ▸ (H.ready t _).mpr ⟨ht,rfl⟩⟩
  rcases H.other l t hl with ⟨p,rfl⟩ | ⟨-,h⟩
  · rw [((H.ready t p).mp hl).2]
  · simp [ht] at h

omit [DecidableEq ο] [DecidableEq θ] in
theorem open_of_ready (H : Invariant idle D E k f) (ht : (k.thread t).stat = .ready)
    {P : Prop} (h : t ∈ E) : P := by
  have hc := H.closed t h
  rw [ht] at hc
  cases hc

/-- A ready thread leaves all lists. -/
theorem suspend (H : Invariant idle D E k f) (ht : (k.thread t).stat = .ready) (hi : t ≠ idle) :
    ∃ s h f', k.suspend t = some (⟨s,h,
        Function.update k.thread t {k.thread t with stat := .suspend, timerActive := false},
        k.currentThread,k.lockNest⟩,ERR_OK) ∧
      ∀ x, x.stat = .suspend → (x.timerActive = true → k.currentThread ≠ none) →
        Invariant idle D E ⟨s,h,Function.update k.thread t x,k.currentThread,k.lockNest⟩ f' := by
  have hmem := H.mem_iff ht
  have hd := H.queues.lists.nodup (.ready (k.thread t).currentPriority)
  obtain ⟨s,h,e,-,hq⟩ := removeThread_spec (k := k.modify t fun x => {x with stat := .suspend})
    (t := t) H.queues (by simp [Kernel.modify,hmem])
  have hp : ((k.modify t fun x => {x with stat := .suspend}).thread t).currentPriority =
      (k.thread t).currentPriority := by simp [Kernel.modify]
  rw [hp] at hq
  have hout : ∀ l, t ∉ sequenceCall f (.erase (.ready (k.thread t).currentPriority) t) l := by
    simp [mem_erase hd,hmem]
  refine ⟨s,h,sequenceCall f (.erase (.ready (k.thread t).currentPriority) t),?_,?_⟩
  · simp only [Kernel.suspend,ht,e,Kernel.timerStop]
    simp [Kernel.modify]
  · exact fun x hx hxt => H.replace hq rfl Iff.rfl (fun l u hu => by simp [mem_erase hd,hu])
      (fun q => by simp [hout,hx]) (fun l hl => absurd hl (hout l)) (fun h => ⟨hx,hxt h⟩)
      (fun h => absurd h hi) (by simpa [sequenceCall] using H.defunct) (fun _ hu _ => hu)
      (H.open_of_ready ht)

theorem changePriority (H : Invariant idle D E k f) (ht : (k.thread t).stat = .ready) {p : Priority}
    (hclean : ∀ k' ∈ k.removeThread t,
      EntersClean (k'.modify t fun x => {x with currentPriority := p}) t) :
    ∃ k' f', k.changePriority t p = some k' ∧ Invariant idle D E k' f' := by
  have hmem := H.mem_iff ht
  have hd := H.queues.lists.nodup (.ready (k.thread t).currentPriority)
  obtain ⟨s,h,e,-,hq⟩ := removeThread_spec (t := t) H.queues (by simp [hmem])
  have hout : ∀ l, t ∉ sequenceCall f (.erase (.ready (k.thread t).currentPriority) t) l := by
    simp [mem_erase hd,hmem]
  obtain ⟨s',h',e',hq'⟩ := insertThread_spec
    (k := Kernel.modify {k with lists := s, priorityTree := h} t
      fun x => {x with currentPriority := p}) (t := t) hq hout (hclean _ e)
  have hp : ((Kernel.modify {k with lists := s, priorityTree := h} t
      fun x => {x with currentPriority := p}).thread t).currentPriority = p := by
    simp [Kernel.modify]
  rw [hp] at hq'
  refine ⟨_,moved f (.ready (k.thread t).currentPriority) (.ready p) t,
    by simpa [Kernel.changePriority,ht,e] using e',?_⟩
  refine H.replace (t := t) (x := {k.thread t with currentPriority := p}) hq' ?_ Iff.rfl ?_ ?_ ?_ ?_ ?_
    (by simpa [moved,sequenceCall] using H.defunct) (fun _ hu _ => hu) (H.open_of_ready ht)
  · simp [Kernel.modify,ht]
  · simp +contextual [mem_moved hd]
  · simp [mem_moved hd,hmem,ht,eq_comm]
  · intro l hl
    exact Or.inl ⟨_,by simpa [mem_moved hd,hmem] using hl⟩
  · intro h
    simpa [ht] using (H.timers t h).1
  · exact fun _ _ => ht

omit [DecidableEq ο] in
/-- Fields that the lists do not depend on may change. -/
theorem touch (H : Invariant idle D E k f) (g : Thread → Thread)
    (hs : (g (k.thread t)).stat = (k.thread t).stat)
    (hp : (k.thread t).stat = .ready →
      (g (k.thread t)).currentPriority = (k.thread t).currentPriority)
    (ht : (g (k.thread t)).timerActive = (k.thread t).timerActive) :
    Invariant idle D E (k.modify t g) f := by
  refine H.replace H.queues rfl Iff.rfl (fun l u hu => Iff.rfl) (fun p => ?_) (fun l hl => ?_)
    (by rw [ht,hs]; exact H.timers t) (fun h hc => by rw [hs,h]; exact H.idle hc)
    H.defunct (fun _ hu _ => hu) fun h => by rw [hs]; exact H.closed t h
  · rw [H.ready,hs]
    exact and_congr_right fun h => by rw [hp h]
  · rw [hs]
    exact H.other l t hl

theorem process (H : Invariant idle D E k f) (hc : k.currentThread ≠ none) :
    ∃ k', k.process = some k' ∧ Invariant idle D E k' f := by
  obtain ⟨c,e⟩ := process_spec H.queues ((H.ready idle _).mpr ⟨H.idle hc,rfl⟩) hc
  exact ⟨_,e,H.queues,H.ready,H.other,fun t h => ⟨(H.timers t h).1,by simp⟩,fun _ => H.idle hc,
    H.defunct,H.closed⟩

/-- A ready thread goes to the end of its list. -/
theorem turn (H : Invariant idle D E k f) (ht : (k.thread t).stat = .ready)
    (hc : k.currentThread ≠ none) :
    ∃ s₁ s₂ k' f', ListFamily.erase k.lists (ListId.ready (k.thread t).currentPriority) t = some s₁ ∧
      ListFamily.pushBack s₁ (ListId.ready (k.thread t).currentPriority) t = some s₂ ∧
      Kernel.process {k with lists := s₂} = some k' ∧ Invariant idle D E k' f' := by
  have hmem := H.mem_iff ht
  have hd := H.queues.lists.nodup (.ready (k.thread t).currentPriority)
  obtain ⟨s₁,s₂,e₁,e₂,hq⟩ := H.queues.rotate ((hmem _).mpr rfl)
  have H' : Invariant idle D E {k with lists := s₂}
      (moved f (.ready (k.thread t).currentPriority) (.ready (k.thread t).currentPriority) t) := by
    refine H.replace (t := t) (x := k.thread t) hq (by simp) Iff.rfl ?_ ?_ ?_ (H.timers t)
      (fun _ _ => ht) (by simpa [moved,sequenceCall] using H.defunct) (fun _ hu _ => hu)
      (H.open_of_ready ht)
    · simp +contextual [mem_moved hd]
    · simp [mem_moved hd,hmem,ht,eq_comm]
    · intro l hl
      exact Or.inl ⟨_,by simpa [mem_moved hd,hmem] using hl⟩
  obtain ⟨k',e,H'⟩ := H'.process hc
  exact ⟨s₁,s₂,k',_,e₁,e₂,e,H'⟩

/-- The current thread spends a tick, and at the end of its slice its turn. -/
theorem inclock (H : Invariant idle D E k f) : ∃ k' f', k.inclock = some k' ∧ Invariant idle D E k' f' := by
  cases hc : k.currentThread with
  | none => exact ⟨k,f,by simp [Kernel.inclock,hc],H⟩
  | some t =>
      simp only [Kernel.inclock,hc]
      have H₁ : Invariant idle D E (k.modify t fun x => {x with remainingTick := x.remainingTick-1}) f :=
        H.touch _ rfl (fun _ => rfl) rfl
      have hc₁ : (k.modify t fun x => {x with remainingTick := x.remainingTick-1}).currentThread =
        some t := hc
      generalize (k.modify t fun x => {x with remainingTick := x.remainingTick-1}) = k₁ at H₁ hc₁ ⊢
      by_cases hrem : (k₁.thread t).remainingTick ≠ 0
      · exact ⟨k₁,f,if_pos hrem,H₁⟩
      have H₂ : Invariant idle D E (k₁.modify t fun x => {x with remainingTick := x.initTick}) f :=
        H₁.touch _ rfl (fun _ => rfl) rfl
      have hc₂ : (k₁.modify t fun x => {x with remainingTick := x.initTick}).currentThread =
        some t := hc₁
      rw [if_neg hrem]
      generalize (k₁.modify t fun x => {x with remainingTick := x.initTick}) = k₂ at H₂ hc₂ ⊢
      by_cases hstat : (k₂.thread t).stat ≠ .ready
      · exact ⟨k₂,f,if_pos hstat,H₂⟩
      obtain ⟨s₁,s₂,k',f',e₁,e₂,e,H'⟩ := H₂.turn (not_not.mp hstat) (by simp [hc₂])
      exact ⟨k',f',by rw [if_neg hstat]; simpa [e₁,e₂] using e,H'⟩

theorem startup (H : Invariant idle D E k f) (ht : (k.thread t).stat = .init)
    (hclean : Clean k (.startup t)) : ∃ k' f', k.startup t = some k' ∧ Invariant idle D E k' f' := by
  obtain ⟨s,h,f',e,-,-,hinv⟩ := H.enter (t := t)
    (fun x => {x with currentPriority := x.initPriority, stat := .suspend, timerActive := false})
    (by simp [ht]) (by simp [ht])
    (by simpa [Clean,EntersClean,Kernel.modify] using hclean)
  have H' := hinv {k.thread t with
    currentPriority := (k.thread t).initPriority, stat := .ready, timerActive := false}
    k.currentThread k.lockNest Iff.rfl rfl rfl rfl
  by_cases hc : k.currentThread = none
  · exact ⟨_,f',by simp [Kernel.startup,ht,Kernel.resume,Kernel.timerStop,e,hc],H'⟩
  · obtain ⟨k',e',H''⟩ := H'.process hc
    exact ⟨k',f',by simpa [Kernel.startup,ht,Kernel.resume,Kernel.timerStop,e,hc] using e',H''⟩

theorem resume (H : Invariant idle D E k f) (hclean : Clean k (.resume t)) :
    ∃ k' f', (k.resume t).map Prod.fst = some k' ∧ Invariant idle D E k' f' := by
  by_cases ht : (k.thread t).stat = .suspend
  · obtain ⟨s,h,f',e,-,-,hinv⟩ := H.enter (t := t) (fun x => {x with timerActive := false})
      (by simp [ht]) (by simp [ht])
      (by simpa [EntersClean,Kernel.modify] using hclean ht)
    refine ⟨_,f',?_,hinv {k.thread t with stat := .ready, timerActive := false}
      k.currentThread k.lockNest Iff.rfl rfl rfl rfl⟩
    simp [Kernel.resume,ht,Kernel.timerStop,e]
  · exact ⟨k,f,by simp [Kernel.resume,ht],H⟩

/-- `timeout` runs with the timer still armed; `check` stops it afterwards. -/
theorem expire (H : Invariant idle D E k f) (ht : (k.thread t).timerActive = true)
    (hclean : EntersClean k t) : ∃ k' f', k.expire t = some k' ∧ Invariant idle D E k' f' := by
  obtain ⟨hs,hc⟩ := H.timers t ht
  obtain ⟨s,h,f',e,hq,hmem,hinv⟩ := H.enter (t := t) (fun x => {x with error := -ERR_TIMEOUT})
    (by simp [hs]) (by simp [hs])
    (by simpa [EntersClean,Kernel.modify] using hclean)
  obtain ⟨c,e'⟩ := process_spec (k := ⟨s,h,Function.update k.thread t
    {k.thread t with error := -ERR_TIMEOUT, stat := .ready},k.currentThread,k.lockNest⟩) hq hmem hc
  refine ⟨_,f',?_,hinv {k.thread t with error := -ERR_TIMEOUT, stat := .ready, timerActive := false}
    (some c) k.lockNest (by simp [hc]) rfl rfl rfl⟩
  simp only [Kernel.expire,Kernel.timeout,hs]
  simp [e,e',Kernel.timerStop]
  simp [Kernel.modify]

/-- The thread that is selected to run goes to sleep and another one runs. -/
theorem sleep (H : Invariant idle D E k f) {tick : ℕ} (hl : Legal idle k (.sleep tick)) :
    ∃ k' f', k.sleep tick = some k' ∧ Invariant idle D E k' f' := by
  obtain ⟨htick,hi,hc,hn⟩ := hl
  obtain ⟨t,ht⟩ := Option.ne_none_iff_exists'.mp hc
  have hready := H.selects.runnable t (hn.trans (by rw [ht]))
  obtain ⟨s,h,f',e,hinv⟩ := H.suspend hready fun h => hi (by rw [ht,h])
  have H' := hinv {k.thread t with stat := .suspend, timerActive := true, timerInitTick := tick}
    rfl fun _ => hc
  obtain ⟨k',e',H''⟩ := H'.process hc
  refine ⟨k',f',?_,H''⟩
  rw [ht] at e' e
  simpa [Kernel.sleep,ht,e,Kernel.timerStart,htick,Kernel.modify] using e'

end Invariant

/-- Every legal and clean call succeeds and keeps the invariant. -/
theorem Invariant.call (H : Invariant idle D E k f) {c : Call θ} (hl : Legal idle k c)
    (hc : Clean k c) : ∃ k' f', call k c = some k' ∧ Invariant idle D E k' f' := by
  cases c with
  | startup t => exact H.startup hl hc
  | start =>
      have hidle : (k.thread idle).stat = .ready := hl
      obtain ⟨q,u,us,-,hn⟩ := nextThread_of_ready H.queues ((H.ready idle _).mpr ⟨hidle,rfl⟩)
      exact ⟨{k with currentThread := some u},f,by simp [Scheduler.call,Kernel.start,hn],H.queues,
        H.ready,H.other,fun t h => ⟨(H.timers t h).1,by simp⟩,fun _ => hidle,H.defunct,H.closed⟩
  | suspend t =>
      by_cases ht : (k.thread t).stat = .ready
      · obtain ⟨s,h,f',e,hinv⟩ := H.suspend ht hl
        exact ⟨_,f',by simp [Scheduler.call,e],
          hinv {k.thread t with stat := .suspend, timerActive := false} rfl (by simp)⟩
      · exact ⟨k,f,by simp [Scheduler.call,Kernel.suspend,ht],H⟩
  | resume t => exact H.resume hc
  | sleep tick => exact H.sleep hl
  | sleepReturn t => exact ⟨_,f,rfl,H.touch _ rfl (fun _ => rfl) rfl⟩
  | expire t => exact H.expire hl hc
  | changePriority t p =>
      by_cases ht : (k.thread t).stat = .ready
      · exact H.changePriority ht (hc ht)
      · exact ⟨_,f,by simp [Scheduler.call,Kernel.changePriority,ht]; rfl,
          H.touch _ rfl (fun h => absurd h ht) rfl⟩
  | inclock => exact H.inclock

theorem exists_invariant_call {c : Call θ} (H : ∃ f, Invariant idle D E k f)
    (h : Legal idle k c ∧ Clean k c) : ∃ k', call k c = some k' ∧ ∃ f, Invariant idle D E k' f := by
  obtain ⟨f,H⟩ := H
  obtain ⟨k',f',e,H'⟩ := H.call h.1 h.2
  exact ⟨k',e,f',H'⟩

/-- In every run of clean calls the scheduler selects the right thread. -/
theorem scheduler_selects_ready_threads (idle : θ) {calls : List (Call θ)} (hinit : Initialized k)
    (hlegal : AllSteps call (Legal idle) k calls) (hclean : AllSteps call Clean k calls) :
    Always call Selects k calls :=
  always_of_invariant (I := fun k => ∃ f, Invariant idle [] [] k f) (fun _ ⟨_,H⟩ => H.selects)
    (fun _ _ => exists_invariant_call) ⟨_,hinit.invariant idle⟩ (hlegal.and hclean)

def freshThread (p : Priority) : Thread where
  stat := .init
  currentPriority := p
  initPriority := p
  initTick := 10
  remainingTick := 10
  error := ERR_OK
  timerActive := false
  timerInitTick := 0
  eventSet := 0
  eventInfo := 0

def freshKernel (prio : θ → Priority) : PointerKernel ο θ where
  lists := ⟨fun t => ⟨t,none,none⟩,fun _ => ⟨none,none⟩⟩
  priorityTree := freshHeap (fun p => p.val) id
  thread t := freshThread (prio t)
  currentThread := none
  lockNest := 0

omit [DecidableEq ο] [DecidableEq θ] in
theorem freshKernel_initialized (prio : θ → Priority) :
    Initialized (freshKernel prio : PointerKernel ο θ) where
  lists := ⟨fun _ => rfl,fun _ => ⟨rfl,rfl⟩⟩
  values _ := rfl
  tree := freshHeap_constructed _ _
  obj _ := rfl
  key _ := rfl
  current := rfl
  stat _ := rfl
  timers _ := rfl

def startups (n : ℕ) : List (Call (Fin n)) := (List.finRange n).map .startup++[.start]

/-- The kernel over the given empty lists after every thread was started. -/
def startedOn {σ : Type} {n : ℕ} [ListFamily σ (ListId ο) (Fin n)] (lists : σ)
    (prio : Fin n → Priority) : Kernel σ (Fin n) :=
  let k : Kernel σ (Fin n) :=
    ⟨lists,freshHeap (fun p => p.val) id,fun t => freshThread (prio t),none,0⟩
  ((startups n).foldlM call k).getD k

/-- The same over ideal lists. -/
def startedKernel {n : ℕ} (prio : Fin n → Priority) :
    Kernel (Sequences (ListId ο) (Fin n)) (Fin n) := startedOn ⟨fun _ => []⟩ prio

/-- The same over linked nodes. -/
def startedPointers {n : ℕ} (prio : Fin n → Priority) : PointerKernel ο (Fin n) :=
  startedOn (freshKernel prio).lists prio

theorem startedPointers_invariant {n : ℕ} {i : Fin n} {p : Fin n → Priority}
    (hlegal : AllSteps call (Legal i) (freshKernel p : PointerKernel ο (Fin n)) (startups n))
    (hclean : AllSteps call Clean (freshKernel p : PointerKernel ο (Fin n)) (startups n)) :
    ∃ f, Invariant i [] [] (startedPointers p : PointerKernel ο (Fin n)) f := by
  obtain ⟨k,hk,H⟩ := (always_of_invariant (I := fun k => ∃ f, Invariant i [] [] k f)
    (fun _ H => H) (fun _ _ => exists_invariant_call)
    ⟨_,(freshKernel_initialized p).invariant i⟩ (hlegal.and hclean)).last
  have heq : startedPointers p = k := by
    unfold startedPointers startedOn
    exact congrArg (Option.getD · _) hk
  rwa [heq]

/-- An idle thread and two threads of priority 10. -/
def threeThreads : PointerKernel Empty (Fin 3) :=
  freshKernel fun t => if t = 0 then 254 else 10

/-- The first of two threads sleeps, changes its priority and comes back. -/
def tidyRun : List (Call (Fin 3)) :=
  [.startup 0,.startup 1,.startup 2,.start,.inclock,.changePriority 2 11,.sleep 5,.inclock,
    .expire 1,.sleepReturn 1,.suspend 2,.resume 2]

theorem scheduler_selects_ready_threads_tidyRun : Always call Selects threeThreads tidyRun :=
  scheduler_selects_ready_threads 0 (freshKernel_initialized _) (by decide +kernel)
    (by decide +kernel)

/-- The first thread leaves the list before the second one and keeps its link to
it. When it comes back to the empty list and leaves again, the suspended second
thread has become the head. -/
def staleResume : List (Call (Fin 3)) :=
  [.startup 0,.startup 1,.startup 2,.start,.suspend 1,.suspend 2,.resume 1,.suspend 1]

theorem staleResume_selects_suspended : AllSteps call (Legal 0) threeThreads staleResume ∧
    ((staleResume.foldlM call threeThreads).map fun k => (k.nextThread,(k.thread 2).stat)) =
      some (some (some 2),.suspend) ∧
    ¬Always call Selects threeThreads staleResume := by
  have hfacts : ((staleResume.foldlM call threeThreads).map fun k =>
      (k.nextThread,(k.thread 2).stat)) = some (some (some 2),.suspend) := by decide +kernel
  refine ⟨by decide +kernel,hfacts,fun h => ?_⟩
  obtain ⟨k,hk,H⟩ := h.last
  rw [hk,Option.map_some,Option.some.injEq,Prod.mk.injEq] at hfacts
  have hready := H.runnable 2 hfacts.1
  rw [hfacts.2] at hready
  cases hready

end CosKernel.Scheduler
