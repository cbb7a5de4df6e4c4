import CosKernel.SchedulerInvariant

/-!
# Thread exit and reaping

`exit` removes the running thread from the scheduler, `detach` removes it again,
and the destructor that the idle thread runs removes it a third time. The second
and the third `erase` meet a node that is in no ready list and write through the
links it still carries. The runs in which that happens to do no harm are those
in which these links lead to a node outside all lists, or end at a null `_pNext`
that is overwritten by null.
-/
namespace CosKernel.ThreadExit
open RedBlackZipper RedBlackHeap IntrusiveList TransitionRuns

/-- The kernel with the threads that called `exit` and those that were deleted. -/
structure World (ο θ : Type) where
  kernel : PointerKernel ο θ
  exited : List θ
  deleted : List θ

inductive Call (θ : Type) where
  | scheduler (c : Scheduler.Call θ)
  | exit
  | excute
  deriving DecidableEq, Repr

variable {ο θ : Type} [DecidableEq ο] [DecidableEq θ] [Fintype θ]

def call (w : World ο θ) : Call θ → Option (World ο θ)
  | .scheduler c => (Scheduler.call w.kernel c).map fun k => {w with kernel := k}
  | .exit => do
      let t ← w.kernel.currentThread
      let k ← w.kernel.exit
      some {w with kernel := k, exited := w.exited++[t]}
  | .excute => do
      let (k,r) ← w.kernel.excute (Fintype.card θ)
      some {w with kernel := k, deleted := w.deleted++r.toList}

/-- Only the thread that is selected to run exits, and never the idle thread. -/
def Legal (idle : θ) (w : World ο θ) : Call θ → Prop
  | .scheduler c => Scheduler.Legal idle w.kernel c
  | .exit => w.kernel.currentThread ≠ some idle ∧ w.kernel.currentThread ≠ none ∧
      w.kernel.nextThread = some w.kernel.currentThread
  | .excute => True

/-- Threads whose node is in no list. -/
def World.Outside (w : World ο θ) (a : θ) : Prop :=
  (w.kernel.thread a).stat = .init ∨ (w.kernel.thread a).stat = .suspend ∨ a ∈ w.deleted

/-- A further `remove_thread` of `t` writes nothing that matters. -/
def World.Harmless (w : World ο θ) (t : θ) : Prop :=
  match (w.kernel.lists.node t).pPrev with
  | none => False
  | some a =>
      let l : ListId ο := .ready (w.kernel.thread t).currentPriority
      if (w.kernel.lists.list l).pTail = some t then
        (w.kernel.lists.node a).pNext = none ∨ w.Outside a
      else (w.kernel.lists.node t).pNext ≠ none ∧ w.Outside a

/-- Every thread enters the ready lists clean, every further `remove_thread` is
harmless, and the first defunct thread has a null `_pNext`. -/
def Clean (w : World ο θ) : Call θ → Prop
  | .scheduler c => Scheduler.Clean w.kernel c
  | .exit => ∀ t ∈ w.kernel.currentThread, w.Harmless t ∧
      (w.kernel.lists.empty .defunct → (w.kernel.lists.node t).pNext = none)
  | .excute => ∀ t ∈ w.kernel.lists.front .defunct, w.Harmless t

/-- The walks of the lists yield `f`, without repetitions, and the tree holds the
nodes of the ready lists in use. -/
structure Stands (k : PointerKernel ο θ) (f : ListId ο → List θ) : Prop where
  walk : ∀ l, ∀ fuel ≥ (f l).length, k.lists.walk fuel (k.lists.begin l) = some (f l)
  nodup : ∀ l, (f l).Nodup
  disjoint : ∀ l m, l ≠ m → (f l).Disjoint (f m)
  tree : ∃ t, k.priorityTree.root = rootRef t ∧ Links k.priorityTree t ∧
    ∀ p, p ∈ t.toList ↔ f (.ready p) ≠ []

/-- `exit` moves the running thread from its ready list to the end of the defunct
list. `excute` deletes the first defunct thread, so that the deleted threads and
the defunct ones are those that have exited, each once. Nothing else moves. -/
def Exact (w : World ο θ) (c : Call θ) (w' : World ο θ) : Prop :=
  match c with
  | .scheduler _ => True
  | .exit => ∃ t f g, w.kernel.currentThread = some t ∧
      g = moved f (.ready (w.kernel.thread t).currentPriority) .defunct t ∧
      Stands w.kernel f ∧ Stands w'.kernel g ∧
      (∀ p, t ∉ g (.ready p)) ∧ (g .defunct).count t = 1
  | .excute => ∃ f, Stands w.kernel f ∧
      Stands w'.kernel (Function.update f .defunct (f .defunct).tail) ∧
      w'.deleted = w.deleted++(f .defunct).head?.toList ∧
      w'.exited = w'.deleted++(f .defunct).tail ∧ w'.exited.Nodup

instance (w : World ο θ) (a : θ) : Decidable (w.Outside a) :=
  inferInstanceAs (Decidable (_ ∨ _ ∨ _))

instance (w : World ο θ) (t : θ) : Decidable (w.Harmless t) := by
  unfold World.Harmless
  split <;> infer_instance

instance (idle : θ) (w : World ο θ) : ∀ c, Decidable (Legal idle w c)
  | .scheduler c => inferInstanceAs (Decidable (Scheduler.Legal idle w.kernel c))
  | .exit => inferInstanceAs (Decidable (_ ∧ _ ∧ _))
  | .excute => .isTrue trivial

instance (w : World ο θ) : ∀ c, Decidable (Clean w c)
  | .scheduler c => inferInstanceAs (Decidable (Scheduler.Clean w.kernel c))
  | .exit => inferInstanceAs (Decidable (∀ t ∈ w.kernel.currentThread, w.Harmless t ∧
      (w.kernel.lists.empty .defunct → (w.kernel.lists.node t).pNext = none)))
  | .excute => inferInstanceAs (Decidable (∀ t ∈ w.kernel.lists.front .defunct, w.Harmless t))

variable {w : World ο θ} {f : ListId ο → List θ} {idle t : θ} {D : List θ}

omit [DecidableEq ο] [DecidableEq θ] [Fintype θ] in
theorem Stands.of_queues {k : PointerKernel ο θ}
    (H : ReadyQueues k.lists k.priorityTree f) : Stands k f := by
  obtain ⟨X,⟨-,-,u,t,ht⟩,hX⟩ := H.tree
  exact ⟨fun l => (H.lists.chained l).observed.walk,H.lists.nodup,H.lists.disjoint,
    t,ht.tree.root,ht.tree.sub.links,fun p => (ht.elements p).trans (hX p)⟩

omit [Fintype θ] in
/-- The thread left the head of the list `m` just before, and is removed again. -/
theorem World.Harmless.again {m : ListId ο} {us : List θ} {s₁ : Store (ListId ο) θ θ}
    {h₁ : Heap Priority Priority} (hH : w.Harmless t) (hout : ∀ a, w.Outside a → ∀ l, a ∉ f l)
    (hq : ReadyQueues w.kernel.lists w.kernel.priorityTree f) (hf : f m = t::us)
    (e : w.kernel.lists.erase m t = some s₁)
    (hq₁ : ReadyQueues s₁ h₁ (sequenceCall f (.erase m t))) :
    ∃ s₂, Kernel.removeThread ({w.kernel with lists := s₁, priorityTree := h₁} : PointerKernel ο θ) t =
        some {w.kernel with lists := s₂, priorityTree := h₁} ∧
      ReadyQueues s₂ h₁ (sequenceCall f (.erase m t)) ∧
      ((w.kernel.lists.node t).pNext = none → (s₂.node t).pNext = none) := by
  obtain ⟨hnext,hprev,htail⟩ := erase_head_fields hq.lists hf e
  have hd := hq.lists.nodup m
  have hstray : ∀ l, t ∉ sequenceCall f (.erase m t) l := by
    intro l hl
    obtain ⟨hl,hne⟩ := (mem_erase hd).mp hl
    have hml : l = m := by
      by_contra hml
      exact hq.lists.disjoint l m hml hl (by simp [hf])
    exact hne ⟨hml,rfl⟩
  have hless : ∀ a, w.Outside a → ∀ l, a ∉ sequenceCall f (.erase m t) l :=
    fun a ha l hl => hout a ha l ((mem_erase hd).mp hl).1
  unfold World.Harmless at hH
  cases ha : (w.kernel.lists.node t).pPrev with
  | none => simp [ha] at hH
  | some a =>
      simp only [ha] at hH
      refine (fun ⟨s₂,e₂,hq₂,hn⟩ => ⟨s₂,e₂,hq₂,fun h => hn ((hnext t).trans h)⟩)
        (removeThread_stray (k := {w.kernel with lists := s₁, priorityTree := h₁}) (a := a) hq₁
          hstray (hprev.trans ha) ?_)
      simp only [htail,hnext]
      split_ifs at hH ⊢ with ht
      · exact hH.imp_right fun ho => hless a ho
      · have hhead : (w.kernel.lists.node t).pNext = us.head? := by
          have := (hq.lists.chained m).path
          rw [hf] at this
          exact this.1
        obtain ⟨b,hb⟩ := Option.ne_none_iff_exists'.mp hH.1
        have hfm : sequenceCall f (.erase m t) m = us := by simp [sequenceCall,hf]
        have hbm : (sequenceCall f (.erase m t) m).head? = some b := by
          rw [hfm,← hhead,hb]
        refine ⟨b,hb,fun l hl => ?_,hless a hH.2⟩
        have hlm : l = m := by
          by_contra hlm
          exact hq₁.lists.disjoint l m hlm hl (List.mem_of_head? hbm)
        rw [hlm,hbm]

/-- The deleted and the defunct threads are those that have exited. -/
structure Accounted (idle : θ) (D : List θ) (w : World ο θ) (f : ListId ο → List θ) : Prop where
  scheduler : Scheduler.Invariant idle D w.exited w.kernel f
  exited : w.exited = w.deleted++D
  nodup : w.exited.Nodup

omit [DecidableEq ο] [DecidableEq θ] [Fintype θ] in
theorem Accounted.outside (H : Accounted idle D w f) {a : θ} (ha : w.Outside a) (l : ListId ο) :
    a ∉ f l := by
  rcases ha with ha | ha | ha
  · exact H.scheduler.notMem (by simp [ha]) (by simp [ha]) l
  · exact H.scheduler.notMem (by simp [ha]) (by simp [ha]) l
  · intro hl
    have hclose := H.scheduler.closed a (by simp [H.exited,ha])
    rcases H.scheduler.other l a hl with ⟨p,rfl⟩ | ⟨rfl,-⟩
    · simp [((H.scheduler.ready a p).mp hl).1] at hclose
    · rw [H.scheduler.defunct] at hl
      have hn := H.nodup
      rw [H.exited] at hn
      exact (List.disjoint_of_nodup_append hn) ha hl

/-- `exit` of the running thread. -/
theorem Accounted.exit (H : Accounted idle D w f) (hl : Legal idle w .exit) (hc : Clean w .exit) :
    ∃ w' f', call w .exit = some w' ∧ Exact w .exit w' ∧
      ∃ t, w.kernel.currentThread = some t ∧ Accounted idle (D++[t]) w' f' := by
  obtain ⟨hi,hcur,hn⟩ := hl
  obtain ⟨t,ht⟩ := Option.ne_none_iff_exists'.mp hcur
  obtain ⟨hH,hnull⟩ := hc t ht
  have hti : t ≠ idle := fun h => hi (by rw [ht,h])
  have hq := H.scheduler.queues
  obtain ⟨p,us,hf⟩ := head_of_nextThread hq (hn.trans (by rw [ht]))
  obtain ⟨hready,rfl⟩ := (H.scheduler.ready t p).mp (by simp [hf])
  have hmem := H.scheduler.mem_iff hready
  have hd := hq.lists.nodup (.ready (w.kernel.thread t).currentPriority)
  obtain ⟨s₁,h₁,e₁,hs₁,hq₁⟩ := removeThread_spec (t := t) hq (by simp [hf])
  obtain ⟨s₂,e₂,hq₂,hnext⟩ := hH.again (fun a => H.outside) hq hf hs₁ hq₁
  obtain ⟨s₃,e₃,hq₃⟩ := hq₂.pushBack (t := t) (l := .defunct) (by simp [mem_erase hd,hmem])
    (fun he => hnext (hnull ((hq.empty_eq _).trans (by simpa [sequenceCall] using he)))) (by simp)
  have hidle := H.scheduler.idle hcur
  have hg : ∀ u l, u ∈ moved f (.ready (w.kernel.thread t).currentPriority) .defunct t l ↔
      u ∈ f l ∧ u ≠ t ∨ l = .defunct ∧ u = t := by
    intro u l
    rw [mem_moved hd]
    by_cases hu : u = t
    · subst hu; simp [hmem]
    · simp [hu]
  obtain ⟨c,e₄⟩ := process_spec (t := idle) (p := (w.kernel.thread idle).currentPriority)
    (k := ⟨s₃,h₁,Function.update w.kernel.thread t
      {w.kernel.thread t with timerActive := false, stat := .close},w.kernel.currentThread,
      w.kernel.lockNest⟩) hq₃
    ((hg _ _).mpr (Or.inl ⟨(H.scheduler.ready idle _).mpr ⟨hidle,rfl⟩,hti.symm⟩)) hcur
  have hexit : w.kernel.exit = some ⟨s₃,h₁,Function.update w.kernel.thread t
      {w.kernel.thread t with timerActive := false, stat := .close},some c,w.kernel.lockNest⟩ := by
    unfold Kernel.exit Kernel.detach
    rw [ht]
    simp [e₁,e₂,Kernel.modify,e₃,e₄]
  refine ⟨_,moved f (.ready (w.kernel.thread t).currentPriority) .defunct t,by
    simp only [call,ht,hexit]; rfl,⟨t,f,_,ht,rfl,.of_queues hq,.of_queues hq₃,?_,?_⟩,t,ht,?_⟩
  · simp [hg]
  · exact List.count_eq_one_of_mem (hq₃.lists.nodup .defunct) ((hg t .defunct).mpr (by simp))
  · refine ⟨H.scheduler.replace (t := t) hq₃ rfl (by simp [hcur]) (fun l u hu => ?_) (fun p => ?_)
      (fun l hl => ?_) (by simp) (fun h => absurd h hti) ?_ (fun u hu hne => ?_) fun _ => rfl,?_,?_⟩
    · simp [hg u l,hu]
    · simp [hg t]
    · exact Or.inr ⟨by simpa [hg t] using hl,rfl⟩
    · simp [moved,sequenceCall,H.scheduler.defunct]
    · simpa [hne] using hu
    · simp [H.exited]
    · have hnew : t ∉ w.exited := fun h => H.scheduler.open_of_ready hready h
      simpa using List.Nodup.concat hnew H.nodup

/-- One round of `excute`. -/
theorem Accounted.excute (H : Accounted idle D w f) (hc : Clean w .excute) :
    ∃ w' f', call w .excute = some w' ∧ Exact w .excute w' ∧ Accounted idle D.tail w' f' := by
  have hq := H.scheduler.queues
  have hdef := H.scheduler.defunct
  have hsize : ListFamily.size (Fintype.card θ) w.kernel.lists ListId.defunct = some D.length := by
    have := (hq.lists.chained .defunct).observed.size
    rw [hdef] at this
    exact this _ (hdef ▸ hq.lists.nodup .defunct).length_le_card
  cases D with
  | nil =>
      refine ⟨w,f,by simp [call,Kernel.excute,hsize],
        ⟨f,.of_queues hq,?_,by simp [hdef],by simpa [hdef] using H.exited,H.nodup⟩,H⟩
      rw [hdef,List.tail_nil,← hdef,Function.update_eq_self]
      exact .of_queues hq
  | cons t D =>
      have hfront : w.kernel.lists.front .defunct = some t :=
        (hq.front_eq .defunct).trans (by simp [hdef])
      have hH := hc t hfront
      have hclose : (w.kernel.thread t).stat = .close :=
        H.scheduler.closed t (by simp [H.exited])
      have hd := hq.lists.nodup .defunct
      obtain ⟨s₁,e₁,hq₁⟩ := hq.erase (t := t) (l := .defunct) (by simp [hdef]) (by simp)
      obtain ⟨s₂,e₂,hq₂,-⟩ := hH.again (fun a => H.outside) hq hdef e₁ hq₁
      have hg : sequenceCall f (.erase .defunct t) = Function.update f .defunct D := by
        simp [sequenceCall,hdef]
      have hgone : ∀ l, t ∉ sequenceCall f (.erase .defunct t) l := by
        intro l hl
        obtain ⟨hl,hne⟩ := (mem_erase hd).mp hl
        rcases H.scheduler.other l t hl with ⟨p,rfl⟩ | ⟨rfl,-⟩
        · simp [((H.scheduler.ready t p).mp hl).1] at hclose
        · exact hne ⟨rfl,rfl⟩
      set k' : PointerKernel ο θ := ⟨s₂,w.kernel.priorityTree,Function.update w.kernel.thread t
        {w.kernel.thread t with timerActive := false, stat := .close},
        w.kernel.currentThread,w.kernel.lockNest⟩ with hk'
      have hstep : w.kernel.excute (Fintype.card θ) = some (k',some t) := by
        have hfront' : ListFamily.front w.kernel.lists ListId.defunct = some t := hfront
        simp [Kernel.excute,hsize,hfront',e₁,Kernel.detach,e₂,Kernel.modify,hk']
      have H' : Scheduler.Invariant idle D w.exited k' (sequenceCall f (.erase .defunct t)) := by
        refine H.scheduler.replace (t := t) hq₂ rfl Iff.rfl
          (fun l u hu => by simp [mem_erase hd,hu]) (fun p => by simp [hgone])
          (fun l hl => absurd hl (hgone l)) (by simp) (fun h hcur => ?_) (by simp [hg])
          (fun _ hu _ => hu) fun _ => rfl
        have := H.scheduler.idle hcur
        simp [← h,hclose] at this
      refine ⟨⟨k',w.exited,w.deleted++[t]⟩,_,by simp [call,hstep],
        ⟨f,.of_queues hq,?_,by simp [hdef],by simp [hdef,H.exited],H.nodup⟩,
        H',by simp [H.exited],H.nodup⟩
      rw [hdef,List.tail_cons,← hg]
      exact .of_queues hq₂

/-- Every legal and clean call is exact and keeps the account. -/
theorem Accounted.call (H : Accounted idle D w f) {c : Call θ} (hl : Legal idle w c)
    (hc : Clean w c) : ∃ w', call w c = some w' ∧ Exact w c w' ∧
      ∃ D' f', Accounted idle D' w' f' := by
  cases c with
  | scheduler c =>
      obtain ⟨k',f',e,H'⟩ := H.scheduler.call hl hc
      exact ⟨{w with kernel := k'},by simp [ThreadExit.call,e],trivial,D,f',H',H.exited,H.nodup⟩
  | exit =>
      obtain ⟨w',f',e,hx,t,-,H'⟩ := H.exit hl hc
      exact ⟨w',e,hx,_,f',H'⟩
  | excute =>
      obtain ⟨w',f',e,hx,H'⟩ := H.excute hc
      exact ⟨w',e,hx,_,f',H'⟩

/-- In every run of clean calls the exiting and the deleted threads leave no trace. -/
theorem exit_and_reaping_are_exact (idle : θ) {k : PointerKernel ο θ} {calls : List (Call θ)}
    (hinit : Scheduler.Initialized k) (hlegal : AllSteps call (Legal idle) ⟨k,[],[]⟩ calls)
    (hclean : AllSteps call Clean ⟨k,[],[]⟩ calls) : Follows call Exact ⟨k,[],[]⟩ calls :=
  follows_of_invariant (I := fun w => ∃ D f, Accounted idle D w f)
    (fun _ _ ⟨_,_,H⟩ h => H.call h.1 h.2)
    ⟨[],_,hinit.invariant idle,rfl,by simp⟩ (hlegal.and hclean)

/-- An idle thread, two threads of priority 10 and one of priority 200. -/
def fourThreads : World Empty (Fin 4) where
  kernel := Scheduler.freshKernel fun t => if t = 0 then 254 else if t = 3 then 200 else 10
  exited := []
  deleted := []

/-- Thread 2 left a list behind thread 1, was alone in list 11 and exits from list
5. Back at priority 11, whose empty list still names it as the tail, it can be
deleted. -/
def luckyExit : List (Call (Fin 4)) :=
  [.scheduler (.startup 0),.scheduler (.startup 1),.scheduler (.startup 2),.scheduler .start,
    .scheduler (.suspend 2),.scheduler (.changePriority 2 11),.scheduler (.resume 2),
    .scheduler (.suspend 2),.scheduler (.changePriority 2 5),.scheduler (.resume 2),
    .scheduler (.startup 3),.exit,.scheduler (.changePriority 2 11),.excute,.excute]

theorem exit_and_reaping_are_exact_luckyExit :
    (luckyExit.foldlM call fourThreads).map World.deleted = some [2] ∧
      Follows call Exact fourThreads luckyExit :=
  ⟨by decide +kernel,exit_and_reaping_are_exact 0 (Scheduler.freshKernel_initialized _)
    (by decide +kernel) (by decide +kernel)⟩

/-- A thread that runs for the first time exits: its `_pPrev` is null, and the
second `erase` follows it. -/
def plainExit : List (Call (Fin 4)) :=
  [.scheduler (.startup 0),.scheduler (.startup 1),.scheduler .start,.exit]

theorem plainExit_dereferences_null : AllSteps call (Legal 0) fourThreads plainExit ∧
    (plainExit.dropLast.foldlM call fourThreads).isSome = true ∧
    (plainExit.foldlM call fourThreads).isNone = true ∧
    ¬Follows call Exact fourThreads plainExit := by
  have hfault : (plainExit.foldlM call fourThreads).isNone = true := by decide +kernel
  refine ⟨by decide +kernel,by decide +kernel,hfault,fun h => ?_⟩
  obtain ⟨w,hw⟩ := h.last
  simp [hw] at hfault

end CosKernel.ThreadExit
