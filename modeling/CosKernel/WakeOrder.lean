import CosKernel.SchedulerInvariant
import CosKernel.WaitQueues

/-!
# The order in which waiting threads are resumed

An IPC object is created with the flag of an order, by arrival or by priority.
`list_suspend` does not look at it: it switches on the flag of the thread, which no
thread ever sets, and both cases append the thread to the list. So the first thread of
the list is the one that has waited longest, and `list_resume` takes that one whatever
the flag of the object says.
-/
namespace CosKernel.WakeOrder
open Kernel TransitionRuns

/-- The values of the flag with which an object is created. -/
inductive Policy where
  | fifo
  | prio
  deriving DecidableEq, Repr

def Policy.flag : Policy → BitVec 16
  | .fifo => 0x00
  | .prio => 0x01

/-- `Object::flag_` as it is initialised; nothing assigns it for a thread. -/
def threadFlag : BitVec 16 := 0

variable {ο θ : Type} [DecidableEq ο] [DecidableEq θ]

/-- `IPC::list_suspend` with the flag on which it switches. -/
def listSuspendBy (k : IdealKernel ο θ) (flag : BitVec 16) (o : ο) (t : θ) :
    Option (IdealKernel ο θ) := do
  let (k,_) ← k.suspend t
  if flag = Policy.fifo.flag then do
    let lists ← ListFamily.pushBack k.lists (ListId.suspend o) t
    some {k with lists := lists}
  else if flag = Policy.prio.flag then do
    let lists ← ListFamily.pushBack k.lists (ListId.suspend o) t
    some {k with lists := lists}
  else some k

/-- `waiting` keeps the threads that wait for an object in the order of their suspensions. -/
structure World (ο θ : Type) where
  kernel : IdealKernel ο θ
  waiting : ο → List θ

def World.priority (w : World ο θ) (t : θ) : Priority := (w.kernel.thread t).currentPriority

inductive Call (ο θ : Type) where
  | listSuspend (o : ο) (t : θ)
  | listResume (o : ο)
  deriving DecidableEq

/-- Threads that do not sleep any more have stopped waiting. -/
def step (w : World ο θ) : Call ο θ → Option (World ο θ)
  | .listSuspend o t => do
      let k ← listSuspendBy w.kernel threadFlag o t
      some ⟨k,Function.update w.waiting o (w.waiting o++[t])⟩
  | .listResume o => do
      let (k,_) ← w.kernel.listResume o
      let asleep := (w.waiting o).filter fun t => (k.thread t).stat = .suspend
      some ⟨k,Function.update w.waiting o asleep⟩

/-- The thread that calls is running. -/
def Legal (w : World ο θ) : Call ο θ → Prop
  | .listSuspend _ t => (w.kernel.thread t).stat = .ready
  | .listResume _ => True

def Resumed (w w' : World ο θ) (t : θ) : Prop :=
  (w.kernel.thread t).stat = .suspend ∧ (w'.kernel.thread t).stat = .ready

/-- The thread `t` is the next of `ts`, which are in the order of their arrival. -/
def Next (policy : Policy) (priority : θ → Priority) (ts : List θ) (t : θ) : Prop :=
  ∃ earlier later, ts = earlier++t::later ∧
    match policy with
    | .fifo => earlier = []
    | .prio => (∀ u ∈ earlier, priority t < priority u) ∧ ∀ u ∈ later, priority t ≤ priority u

/-- If threads wait, `list_resume` resumes the one whose turn it is and no other. -/
def TakesNext (policy : ο → Policy) (w : World ο θ) : Call ο θ → Prop
  | .listSuspend _ _ => True
  | .listResume o => w.waiting o ≠ [] → ∀ w', step w (.listResume o) = some w' →
      ∃ t, Next (policy o) w.priority (w.waiting o) t ∧ ∀ u, Resumed w w' u ↔ u = t

/-- Of the threads that wait for an object with priorities, no one is before the first. -/
def FirstIsLeast (policy : ο → Policy) (w : World ο θ) : Call ο θ → Prop
  | .listSuspend _ _ => True
  | .listResume o => policy o = .prio → ∀ t ts, w.waiting o = t::ts →
      ∀ u ∈ ts, w.priority t ≤ w.priority u

/-- The suspend lists hold the waiting threads in the order of their arrival. -/
structure Lined (w : World ο θ) : Prop where
  queue : ∀ o, w.kernel.lists.get (.suspend o) = w.waiting o
  asleep : ∀ o, ∀ t ∈ w.waiting o, (w.kernel.thread t).stat = .suspend
  nodup : ∀ o, (w.waiting o).Nodup
  apart : ∀ o o' t, t ∈ w.waiting o → t ∈ w.waiting o' → o = o'

variable {w w' : World ο θ} {o : ο} {t : θ}

/-- The switch makes no difference. -/
theorem listSuspendBy_threadFlag (k : IdealKernel ο θ) (o : ο) (t : θ) :
    listSuspendBy k threadFlag o t = k.listSuspend o t := by
  simp only [listSuspendBy,show threadFlag = Policy.fifo.flag from rfl,↓reduceIte]
  rfl

/-- A ready thread falls asleep at the end of the suspend list. -/
theorem listSuspend_queues {k k' : IdealKernel ο θ} (ht : (k.thread t).stat = .ready)
    (h : k.listSuspend o t = some k') :
    (∀ o', k'.lists.get (.suspend o') =
      Function.update (fun o => k.lists.get (.suspend o)) o (k.lists.get (.suspend o)++[t]) o') ∧
    (k'.thread t).stat = .suspend ∧ ∀ u, u ≠ t → k'.thread u = k.thread u := by
  obtain ⟨s₁,s₂,r,hs₁,hs₂,rfl⟩ := listSuspend_some ht h
  obtain rfl := Option.some.inj hs₁
  obtain rfl := Option.some.inj hs₂
  refine ⟨fun o' => ?_,by simp,fun u hu => by simp [hu]⟩
  by_cases ho : o' = o
  · subst ho
    simp
  · simp [ho]

omit [DecidableEq θ] in
theorem mem_update_concat {ws : ο → List θ} {o' : ο} {u : θ} :
    u ∈ Function.update ws o (ws o++[t]) o' ↔ u ∈ ws o' ∨ o' = o ∧ u = t := by
  by_cases ho : o' = o
  · subst ho
    simp
  · simp [ho]

theorem Lined.listSuspend (H : Lined w) (ht : (w.kernel.thread t).stat = .ready)
    (h : step w (.listSuspend o t) = some w') : Lined w' := by
  simp only [step,listSuspendBy_threadFlag,Option.bind_eq_bind,Option.bind_eq_some_iff,
    Option.some.injEq] at h
  obtain ⟨k,hk,rfl⟩ := h
  obtain ⟨hqueue,hself,hothers⟩ := listSuspend_queues ht hk
  have hfresh : ∀ o', t ∉ w.waiting o' := by
    intro o' hmem
    rw [H.asleep o' t hmem] at ht
    cases ht
  refine ⟨fun o' => ?_,fun o' u hu => ?_,fun o' => ?_,fun o₁ o₂ u h₁ h₂ => ?_⟩
  · rw [hqueue]
    simp only [H.queue]
  · obtain hu | ⟨-,rfl⟩ := mem_update_concat.mp hu
    · have hut : u ≠ t := fun hut => hfresh o' (hut ▸ hu)
      exact (congrArg Thread.stat (hothers u hut)).trans (H.asleep o' u hu)
    · exact hself
  · by_cases ho : o' = o
    · subst ho
      simpa [List.nodup_append,H.nodup o'] using
        fun u hu (hut : u = t) => hfresh o' (hut ▸ hu)
    · simpa [ho] using H.nodup o'
  · obtain h₁ | ⟨ho₁,ht₁⟩ := mem_update_concat.mp h₁ <;>
      obtain h₂ | ⟨ho₂,ht₂⟩ := mem_update_concat.mp h₂
    · exact H.apart o₁ o₂ u h₁ h₂
    · exact absurd (ht₂ ▸ h₁) (hfresh o₁)
    · exact absurd (ht₁ ▸ h₂) (hfresh o₂)
    · exact ho₁.trans ho₂.symm

/-- `list_resume` resumes the thread that has waited longest. -/
theorem Lined.listResume (H : Lined w) (h : step w (.listResume o) = some w') :
    (w.waiting o = [] ∧ w' = w) ∨ ∃ t ts, w.waiting o = t::ts ∧
      Wakes w.kernel w'.kernel (.suspend o) t ∧ w'.waiting = Function.update w.waiting o ts := by
  simp only [step,Option.bind_eq_bind,Option.bind_eq_some_iff,Option.some.injEq] at h
  obtain ⟨⟨k,e⟩,hk,rfl⟩ := h
  obtain ⟨hempty,rfl,-⟩ | ⟨t,ts,hq,hwakes,-⟩ := listResume_wakes hk
  · rw [H.queue] at hempty
    refine .inl ⟨hempty,?_⟩
    rw [hempty,List.filter_nil,← hempty,Function.update_eq_self]
  · rw [H.queue] at hq
    refine .inr ⟨t,ts,hq,hwakes,?_⟩
    have hnodup := List.nodup_cons.mp (hq ▸ H.nodup o)
    have hawake : (k.thread t).stat ≠ .suspend := by
      rw [hwakes.asleep (H.asleep o t (by simp [hq]))]
      decide
    have hrest : ∀ u ∈ ts, (k.thread u).stat = .suspend := by
      intro u hu
      rw [hwakes.others u fun hut => hnodup.1 (hut ▸ hu)]
      exact H.asleep o u (by simp [hq,hu])
    simp only [hq,List.filter_cons,hawake,decide_false,Bool.false_eq_true,↓reduceIte]
    rw [List.filter_eq_self.mpr fun u hu => decide_eq_true (hrest u hu)]

theorem Lined.step {a : Call ο θ} (H : Lined w) (hl : Legal w a) (h : step w a = some w') :
    Lined w' := by
  cases a with
  | listSuspend o t => exact H.listSuspend hl h
  | listResume o =>
      obtain ⟨-,rfl⟩ | ⟨t,ts,hq,hwakes,hrest⟩ := H.listResume h
      · exact H
      have hmem : ∀ o' u, u ∈ w'.waiting o' → u ∈ w.waiting o' ∧ u ≠ t := by
        intro o' u hu
        rw [hrest] at hu
        by_cases ho : o' = o
        · subst ho
          rw [Function.update_self] at hu
          exact ⟨by simp [hq,hu],fun hut => (List.nodup_cons.mp (hq ▸ H.nodup o')).1 (hut ▸ hu)⟩
        · rw [Function.update_of_ne ho] at hu
          refine ⟨hu,fun hut => ho (H.apart o' o u hu ?_)⟩
          simp [hq,hut]
      refine ⟨fun o' => ?_,fun o' u hu => ?_,fun o' => ?_,fun o₁ o₂ u h₁ h₂ => ?_⟩
      · rw [hrest]
        by_cases ho : o' = o
        · subst ho
          rw [hwakes.own,H.queue,hq]
          simp
        · rw [hwakes.queue (.suspend o') trivial (by simpa using ho),H.queue,
            Function.update_of_ne ho]
      · obtain ⟨hu,hut⟩ := hmem o' u hu
        rw [hwakes.others u hut]
        exact H.asleep o' u hu
      · rw [hrest]
        by_cases ho : o' = o
        · subst ho
          rw [Function.update_self]
          exact (List.nodup_cons.mp (hq ▸ H.nodup o')).2
        · rw [Function.update_of_ne ho]
          exact H.nodup o'
      · exact H.apart o₁ o₂ u (hmem o₁ u h₁).1 (hmem o₂ u h₂).1

omit [DecidableEq θ] in
/-- The first thread is the next one just when no other comes before it. -/
theorem next_head_iff {policy : Policy} {priority : θ → Priority} {ts : List θ}
    (hnodup : (t::ts).Nodup) : Next policy priority (t::ts) t ↔
      (policy = .prio → ∀ u ∈ ts, priority t ≤ priority u) := by
  constructor
  · rintro ⟨earlier,later,hsplit,hp⟩ rfl u hu
    cases earlier with
    | nil =>
        obtain rfl := (List.cons.inj hsplit).2
        exact hp.2 u hu
    | cons v earlier =>
        obtain ⟨-,rfl⟩ := List.cons.inj hsplit
        exact absurd (by simp) (List.nodup_cons.mp hnodup).1
  · intro h
    refine ⟨[],ts,rfl,?_⟩
    cases policy with
    | fifo => rfl
    | prio => exact ⟨nofun,h rfl⟩

theorem Lined.takesNext_iff {policy : ο → Policy} {a : Call ο θ} (H : Lined w) :
    TakesNext policy w a ↔ FirstIsLeast policy w a ∨ (WakeOrder.step w a).isNone = true := by
  cases a with
  | listSuspend o t => simp [TakesNext,FirstIsLeast]
  | listResume o =>
      cases hs : WakeOrder.step w (.listResume o) with
      | none => simp [TakesNext,hs]
      | some w' =>
          simp only [TakesNext,FirstIsLeast,hs,Option.isNone_some,Bool.false_eq_true,or_false,
            Option.some.injEq,forall_eq']
          obtain ⟨hq,-⟩ | ⟨t,ts,hq,hwakes,-⟩ := H.listResume hs
          · simp [hq]
          have hresumed : ∀ u, Resumed w w' u ↔ u = t := by
            intro u
            constructor
            · rintro ⟨hasleep,hready⟩
              by_contra hut
              rw [hwakes.others u hut,hasleep] at hready
              cases hready
            · rintro rfl
              have hasleep := H.asleep o u (by simp [hq])
              exact ⟨hasleep,hwakes.asleep hasleep⟩
          have hnodup : (t::ts).Nodup := hq ▸ H.nodup o
          rw [hq]
          constructor
          · intro h hp t' ts' hcons
            obtain ⟨u,hnext,hu⟩ := h (by simp)
            obtain rfl : t = u := (hu t).mp ((hresumed t).mpr rfl)
            obtain ⟨rfl,rfl⟩ := List.cons.inj hcons
            exact (next_head_iff hnodup).mp hnext hp
          · intro h _
            exact ⟨t,(next_head_iff hnodup).mpr fun hp => h hp t ts rfl,hresumed⟩

/-- Waiting threads are resumed in the order that the flags of the objects promise just when, at
every call on an object with priorities, the thread that has waited longest has the least. -/
theorem resumed_in_order_iff (policy : ο → Policy) (k : IdealKernel ο θ)
    (hempty : ∀ o, k.lists.get (.suspend o) = []) {calls : List (Call ο θ)}
    (hlegal : AllSteps step Legal ⟨k,fun _ => []⟩ calls) :
    AllSteps step (TakesNext policy) ⟨k,fun _ => []⟩ calls ↔
      AllSteps step (fun w a => FirstIsLeast policy w a ∨ (step w a).isNone = true)
        ⟨k,fun _ => []⟩ calls := by
  have hstart : Lined (⟨k,fun _ => []⟩ : World ο θ) :=
    ⟨hempty,nofun,fun _ => List.nodup_nil,nofun⟩
  exact allSteps_congr (fun w a H _ => H.takesNext_iff) (fun w a w' H hl h => H.step hl h)
    hstart hlegal

instance (w : World ο θ) : ∀ a, Decidable (Legal w a)
  | .listSuspend _ t => inferInstanceAs (Decidable ((w.kernel.thread t).stat = .ready))
  | .listResume _ => .isTrue trivial

instance (policy : ο → Policy) (w : World ο θ) : ∀ a, Decidable (FirstIsLeast policy w a)
  | .listSuspend _ _ => .isTrue trivial
  | .listResume o =>
      match h : w.waiting o with
      | [] => .isTrue (by simp [FirstIsLeast,h])
      | t::ts => decidable_of_iff (policy o = .prio → ∀ u ∈ ts, w.priority t ≤ w.priority u)
          (by simp [FirstIsLeast,h])

/-- An idle thread and three threads, the last of them less important. -/
def fourThreads : IdealKernel Bool (Fin 4) := Scheduler.startedKernel ![254,10,10,20]

/-- The object `true` has priorities. Its waiting threads come in their order. -/
def orderlyWaits : List (Call Bool (Fin 4)) :=
  [.listSuspend true 2,.listSuspend true 1,.listSuspend true 3,.listResume true,.listResume true,
    .listSuspend false 2,.listResume true,.listResume false]

theorem resumed_in_order_orderlyWaits :
    (orderlyWaits.foldlM step ⟨fourThreads,fun _ => []⟩).isSome = true ∧
    AllSteps step (TakesNext fun o => if o then .prio else .fifo) ⟨fourThreads,fun _ => []⟩
      orderlyWaits :=
  ⟨by decide +kernel,(resumed_in_order_iff _ fourThreads (by decide +kernel)
    (by decide +kernel)).mpr (by decide +kernel)⟩

/-- The less important thread waits first and is resumed first. -/
def lateUrgent : List (Call Bool (Fin 4)) := [.listSuspend true 3,.listSuspend true 1]

theorem lateUrgent_resumes_less_important :
    AllSteps step Legal ⟨fourThreads,fun _ => []⟩ (lateUrgent++[Call.listResume true]) ∧
    ((lateUrgent++[Call.listResume true]).foldlM step ⟨fourThreads,fun _ => []⟩).map (fun w : World Bool (Fin 4) =>
      ((w.kernel.thread 1).stat,(w.kernel.thread 3).stat)) = some (.suspend,.ready) ∧
    ¬AllSteps step (TakesNext fun _ => .prio) ⟨fourThreads,fun _ => []⟩
      (lateUrgent++[Call.listResume true]) := by
  refine ⟨by decide +kernel,by decide +kernel,fun h => ?_⟩
  have hfacts : (lateUrgent.foldlM step ⟨fourThreads,fun _ => []⟩).map (fun w =>
      (w.waiting true,w.priority 3,w.priority 1,(w.kernel.thread 3).stat,
        (step w (.listResume true)).map fun w' => (w'.kernel.thread 3).stat)) =
      some ([3,1],20,10,.suspend,some .ready) := by decide +kernel
  obtain ⟨w,hw,hfacts⟩ := Option.map_eq_some_iff.mp hfacts
  simp only [Prod.mk.injEq] at hfacts
  obtain ⟨hwaiting,hp₃,hp₁,hasleep,hready⟩ := hfacts
  obtain ⟨w',hw',hready⟩ := Option.map_eq_some_iff.mp hready
  have htakes := (allSteps_concat.mp h).2 w hw
  obtain ⟨t,hnext,hresumed⟩ := htakes (by simp [hwaiting]) w' hw'
  obtain rfl := (hresumed 3).mp ⟨hasleep,hready⟩
  rw [hwaiting,next_head_iff (by decide)] at hnext
  have hle := hnext rfl 1 (by simp)
  rw [hp₃,hp₁] at hle
  exact absurd hle (by decide)

end CosKernel.WakeOrder
