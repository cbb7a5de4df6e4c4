import CosKernel.WaitLists

/-!
# No event is missed

A thread sleeps in `Event::recv` only as long as the events that have arrived do not satisfy its
request, and as long as it does it is in the list that `send` walks along. This holds whatever
happens between the calls, timeouts and resets included: a thread that has timed out stays in the
list with a request that may have changed, so the walk may meet threads that do not wait, but it
passes no thread that does without a look at its request.
-/
namespace CosKernel
open PartialMorphisms TransitionRuns Kernel Ipc

namespace Sequences

variable {ν : Type} [DecidableEq ν] {t : ν}

/-- The walk goes on behind the first occurrence of an element. -/
theorem after_append (vs us : List ν) : ∃ vs' us', vs++t::us = vs'++us' ∧
    us'.head? = after t (vs++t::us) ∧ ∀ z ∈ vs', z ∈ vs ∨ z = t := by
  induction vs with
  | nil => exact ⟨[t],us,rfl,by simp [after],by simp⟩
  | cons v vs ih =>
      by_cases hv : v = t
      · subst hv
        exact ⟨[v],vs++v::us,rfl,by simp [after],by simp⟩
      · obtain ⟨vs',us',hsplit,hhead,hmem⟩ := ih
        refine ⟨v::vs',us',by rw [List.cons_append,hsplit,List.cons_append],?_,?_⟩
        · simpa [after,hv] using hhead
        · intro z hz
          rcases List.mem_cons.mp hz with rfl | hz
          · simp
          · exact (hmem z hz).imp (List.mem_cons_of_mem v) id

/-- It also does when that occurrence is taken out. -/
theorem after_erase (vs us : List ν) : ∃ vs' us', (vs++t::us).erase t = vs'++us' ∧
    us'.head? = after t (vs++t::us) ∧ ∀ z ∈ vs', z ∈ vs := by
  induction vs with
  | nil => exact ⟨[],us,by simp,by simp [after],by simp⟩
  | cons v vs ih =>
      by_cases hv : v = t
      · subst hv
        exact ⟨[],vs++v::us,by simp,by simp [after],by simp⟩
      · obtain ⟨vs',us',hsplit,hhead,hmem⟩ := ih
        refine ⟨v::vs',us',?_,?_,?_⟩
        · rw [List.cons_append,List.erase_cons_tail (by simpa using hv),hsplit,List.cons_append]
        · simpa [after,hv] using hhead
        · intro z hz
          rcases List.mem_cons.mp hz with rfl | hz
          · simp
          · exact List.mem_cons_of_mem v (hmem z hz)

end Sequences

namespace Kernel

variable {ο θ : Type} [DecidableEq ο] [DecidableEq θ]
variable {k k' : IdealKernel ο θ} {l l' : ListId ο} {t u : θ} {x y : Thread}

/-- If `t` is asleep, it was when its fields were `x`, with the same request, and it is in `l`. -/
def Rests (t : θ) (l : ListId ο) (x : Thread) (k : IdealKernel ο θ) : Prop :=
  (k.thread t).stat = .suspend → x.stat = .suspend ∧ SameRequest x (k.thread t) ∧ t ∈ k.lists.get l

omit [DecidableEq ο] in
/-- At most the thread `u` has changed. -/
theorem Rests.update (H : Rests t l x k) (h : k'.thread = Function.update k.thread u y)
    (hy : u = t → y.stat = .suspend →
      (k.thread t).stat = .suspend ∧ SameRequest (k.thread t) y)
    (hl : t ∈ k.lists.get l → t ∈ k'.lists.get l) : Rests t l x k' := by
  intro hs
  rw [h] at hs ⊢
  by_cases hut : t = u
  · subst hut
    simp only [Function.update_self] at hs ⊢
    obtain ⟨hold,hset,hinfo⟩ := hy rfl hs
    obtain ⟨hx,hreq,hmem⟩ := H hold
    exact ⟨hx,⟨hset.trans hreq.set,hinfo.trans hreq.info⟩,hl hmem⟩
  · rw [Function.update_of_ne hut] at hs ⊢
    obtain ⟨hx,hreq,hmem⟩ := H hs
    exact ⟨hx,hreq,hl hmem⟩

theorem Rests.removeThread (hl : l.IsWait) (H : Rests t l x k) :
    Yields (Rests t l x) (k.removeThread u) := by
  intro k' hk'
  obtain ⟨s,r,hs,rfl⟩ := removeThread_some hk'
  obtain rfl := Option.some.inj hs
  intro hstat
  obtain ⟨hx,hreq,hmem⟩ := H hstat
  exact ⟨hx,hreq,by simpa [isWait_ne_ready hl] using hmem⟩

/-- A thread that is resumed does not sleep. -/
theorem Rests.resume (hl : l.IsWait) (h : u = t ∨ Rests t l x k) :
    Yields (fun r => Rests t l x r.1) (k.resume u) := by
  intro r hr
  by_cases hu : (k.thread u).stat = .suspend
  · obtain ⟨s,q,hs,hk⟩ := resume_some hu hr
    obtain rfl := Option.some.inj hs
    rcases h with rfl | H
    · intro hstat
      rw [hk] at hstat
      simp at hstat
    · refine H.update (congrArg Kernel.thread hk) (fun _ hready => by cases hready) fun hmem => ?_
      rw [hk]
      simpa [isWait_ne_ready hl] using hmem
  · rw [resume_other hu hr]
    rcases h with rfl | H
    · exact fun hstat => absurd hstat hu
    · exact H

theorem resume_others {r : IdealKernel ο θ × ℤ} (h : k.resume t = some r) (hu : u ≠ t) :
    r.1.thread u = k.thread u := by
  by_cases hstat : (k.thread t).stat = .suspend
  · obtain ⟨s,q,-,hk⟩ := resume_some hstat h
    rw [hk]
    exact Function.update_of_ne hu _ _
  · rw [resume_other hstat h]

/-- The thread `t` does nothing. -/
def beside (t : θ) : Roles ο θ :=
  {Roles.all ο θ with acts := fun u => u ≠ t, waits := fun u => u ≠ t}

theorem rests_kept (hl : l.IsWait) :
    KernelInvariant (beside t) (Rests t l x) where
  found _ _ _ := trivial
  modify {k u g} _ hg hr H := H.update rfl (fun hut hs => by
    subst hut
    exact ⟨(hg _).stat ▸ hs,hr _⟩) id
  request hu _ H := H.update rfl (fun hut => absurd hut hu) id
  suspend {k u} hu H r hr := by
    by_cases hready : (k.thread u).stat = .ready
    · obtain ⟨s,q,hs,hk⟩ := suspend_some hready hr
      obtain rfl := Option.some.inj hs
      refine H.update (congrArg Kernel.thread hk) (fun hut => absurd hut hu) fun hmem => ?_
      rw [hk]
      simpa [isWait_ne_ready hl] using hmem
    · rw [Kernel.suspend,if_pos hready] at hr
      cases hr
      exact H
  changePriority {k} u p H k' hk' := by
    refine H.update (changePriority_some hk').1 (fun hut hs => ?_) fun hmem => ?_
    · subst hut
      exact ⟨hs,rfl,rfl⟩
    · rwa [changePriority_get hl hk']
  timerStart tick hu _ H :=
    Yields.ite (fun _ => yields_some (H.update rfl (fun hut => absurd hut hu) id)) fun _ => yields_none
  pushBack {k l' u} _ _ H s hs := by
    obtain rfl := Option.some.inj hs
    refine fun hstat => ?_
    obtain ⟨hx,hreq,hmem⟩ := H hstat
    refine ⟨hx,hreq,?_⟩
    by_cases hll : l = l'
    · subst hll
      simp [hmem]
    · simpa [hll] using hmem
  wake {k k₁ l' u} _ _ hk H := by
    obtain ⟨y,-,rfl⟩ := hk
    refine yields_bind fun s hs => Rests.resume hl ?_
    by_cases hut : u = t
    · exact .inl hut
    · refine .inr (H.update rfl (fun h => absurd h hut) fun hmem => ?_)
      obtain rfl := Option.some.inj hs
      by_cases hll : l = l'
      · subst hll
        simpa using (List.mem_erase_of_ne (Ne.symm hut)).mpr hmem
      · simpa [hll] using hmem
  process {k} H k' hk' := by
    obtain ⟨c,rfl⟩ := process_some hk'
    exact H

theorem rests_system (hl : l.IsWait) :
    SystemInvariant (beside t) (Rests t l x) where
  toKernelInvariant := rests_kept hl
  spend H := H.update rfl (fun hut hs => by
    subst hut
    exact ⟨hs,rfl,rfl⟩) id
  current _ _ H := H
  begin {k u} _ _ H := by
    refine Rests.resume hl ?_
    by_cases hut : u = t
    · exact .inl hut
    · exact .inr (H.update rfl (fun h => absurd h hut) id)
  resume _ H := Rests.resume hl (.inr H)
  expire {k u} _ _ H k' hk' := by
    refine H.update (expire_thread hk').2.choose_spec.1 (fun _ hs => ?_) fun hmem => ?_
    · cases (expire_thread hk').2.choose_spec.2.1.symm.trans hs
    · rwa [expire_queue hk' hl]
  rotate {k u s₁ s₂} _ H h₁ h₂ hs := by
    obtain ⟨hx,hreq,hmem⟩ := H hs
    refine ⟨hx,hreq,?_⟩
    obtain rfl := Option.some.inj h₁
    obtain rfl := Option.some.inj h₂
    simpa [isWait_ne_ready hl] using hmem
  remove _ H := H.removeThread hl
  close _ H := H.update rfl (fun _ hs => by cases hs) id
  defunct {k} u H s hs := fun hstat => by
    obtain ⟨hx,hreq,hmem⟩ := H hstat
    obtain rfl := Option.some.inj hs
    exact ⟨hx,hreq,by simpa [isWait_ne_defunct hl] using hmem⟩
  reap {k} u H s hs := fun hstat => by
    obtain ⟨hx,hreq,hmem⟩ := H hstat
    obtain rfl := Option.some.inj hs
    exact ⟨hx,hreq,by simpa [isWait_ne_defunct hl] using hmem⟩

end Kernel

namespace Event

variable {ο θ : Type} [DecidableEq ο] [DecidableEq θ]
variable {k k' : IdealKernel ο θ} {o : ο} {set_ : BitVec 32} {t : θ}

/-- Events that are cleared satisfy nobody. -/
theorem satisfied_clear {c set : BitVec 32} {option : BitVec 8}
    (h : satisfied set_ set option = false) : satisfied (set_ &&& c) set option = false := by
  unfold satisfied at h ⊢
  split_ifs at h ⊢ with hand hor
  · rw [decide_eq_false_iff_not] at h ⊢
    intro heq
    apply h
    rw [← heq,BitVec.and_assoc,← BitVec.and_assoc set_ set_,BitVec.and_self]
  · simp only [ne_eq,decide_not,Bool.not_eq_eq_eq_not,Bool.not_false,decide_eq_true_eq] at h ⊢
    rw [BitVec.and_assoc,BitVec.and_comm c,← BitVec.and_assoc,h]
    exact BitVec.zero_and
  · rfl

/-- The thread `t` does not sleep, or its request is not satisfied. -/
def Unmet (k : IdealKernel ο θ) (set_ : BitVec 32) (t : θ) : Prop :=
  (k.thread t).stat = .suspend →
    satisfied set_ (k.thread t).eventSet (k.thread t).eventInfo = false

theorem clears (p : Prop) [Decidable p] (set_ x : BitVec 32) :
    ∃ c, (if p then set_ &&& ~~~x else set_) = set_ &&& c := by
  by_cases hp : p
  · exact ⟨~~~x,if_pos hp⟩
  · exact ⟨BitVec.allOnes 32,by rw [if_neg hp,BitVec.and_allOnes]⟩

/-- The thread at the cursor is taken out and resumed, and the walk goes on behind it. -/
theorem wake_unmet {k₁ : IdealKernel ο θ} {s : Sequences (ListId ο) θ} {r : IdealKernel ο θ × ℤ}
    {vs us : List θ} (c : BitVec 32) (hsplit : k.lists.get (.suspend o) = vs++t::us)
    (hvs : ∀ z ∈ vs, Unmet k set_ z) (hk : Altered t k k₁)
    (hs : ListFamily.erase k₁.lists (ListId.suspend o) t = some s)
    (hr : Kernel.resume {k₁ with lists := s} t = some r) :
    ∃ vs' us', r.1.lists.get (.suspend o) = vs'++us' ∧
      us'.head? = Sequences.after t (vs++t::us) ∧ ∀ z ∈ vs', Unmet r.1 (set_ &&& c) z := by
  obtain ⟨x,-,rfl⟩ := hk
  obtain ⟨vs',us',herase,hhead,hmem⟩ := Sequences.after_erase (t := t) vs us
  have hw := wakes_of_resume (l := .suspend o) trivial hs hr
  refine ⟨vs',us',?_,hhead,fun z hz hstat => ?_⟩
  · rw [hw.own,hsplit,herase]
  · -- whoever sleeps now is another thread, and nothing of it has changed
    obtain ⟨hzt,hbefore⟩ := hw.asleep_before hstat
    have hz' : r.1.thread z = k.thread z := by
      rw [resume_others hr hzt]
      exact Function.update_of_ne hzt _ _
    rw [hz'] at hstat ⊢
    exact satisfied_clear (hvs z (hmem z hz) hstat)

/-- The threads behind the cursor are not satisfied, and at its end that is all of them. -/
theorem sendLoop_unmet {fuel : ℕ} {vs us : List θ} {need : Bool}
    (hsplit : k.lists.get (.suspend o) = vs++us) (hvs : ∀ z ∈ vs, Unmet k set_ z) :
    Yields (fun r => ∀ z ∈ r.1.lists.get (.suspend o), Unmet r.1 r.2.1 z)
      (sendLoop o fuel k set_ us.head? need) := by
  induction fuel generalizing k set_ vs us need with
  | zero =>
      cases us with
      | nil =>
          refine yields_some fun z hz => hvs z ?_
          simpa [hsplit] using hz
      | cons t us => exact yields_none
  | succ fuel ih =>
      cases us with
      | nil =>
          refine yields_some fun z hz => hvs z ?_
          simpa [hsplit] using hz
      | cons t us =>
          have hnext : ListFamily.next k.lists (ListId.suspend o) t =
              Sequences.after t (vs++t::us) := congrArg (Sequences.after t) hsplit
          change Yields _ (sendLoop o (fuel+1) k set_ (some t) need)
          unfold sendLoop
          rw [hnext]
          refine Yields.ite (fun _ => ?_) fun hunmet => ?_
          · have hk : Altered t k (if (k.thread t).eventInfo &&& FLAG_AND = 0 then
                k.modify t fun x => {x with eventSet := x.eventSet &&& set_} else k) := by
              split_ifs
              · exact altered_modify fun _ => ⟨rfl,rfl,rfl⟩
              · exact altered_self t k
            refine yields_bind fun s hs => yields_bind fun r hr => ?_
            obtain ⟨c,hc⟩ := clears ((k.thread t).eventInfo &&& FLAG_CLEAR ≠ 0) set_
              ((if (k.thread t).eventInfo &&& FLAG_AND = 0 then
                k.modify t fun x => {x with eventSet := x.eventSet &&& set_} else k).thread t).eventSet
            obtain ⟨vs',us',hsplit',hhead,hvs'⟩ := wake_unmet c hsplit hvs hk hs hr
            rw [← hhead,hc]
            exact ih hsplit' hvs'
          · obtain ⟨vs',us',hsplit',hhead,hmem⟩ := Sequences.after_append (t := t) vs us
            rw [← hhead]
            refine ih (hsplit.trans hsplit') fun z hz => ?_
            rcases hmem z hz with hz | rfl
            · exact hvs z hz
            · exact fun _ => Bool.eq_false_iff.mpr hunmet

/-- The threads that `send` leaves in the list are not satisfied. -/
theorem send_unmet {fuel : ℕ} {set : BitVec 32} (hold : Unmet k set_ t) :
    Yields (fun r => t ∈ r.1.lists.get (.suspend o) → Unmet r.1 r.2.1 t)
      (send fuel k o set_ set) := by
  refine Yields.ite (fun _ => yields_some fun _ => hold) fun _ => ?_
  have hloop : Yields (fun r => ∀ z ∈ r.1.lists.get (.suspend o), Unmet r.1 r.2.1 z)
      (sendLoop o fuel k (set_ ||| set) (k.lists.get (.suspend o)).head? false) :=
    sendLoop_unmet (List.nil_append _).symm (by simp)
  refine hloop.bind fun r hr => Yields.ite (fun _ => ?_) fun _ => ?_
  · refine yields_bind fun k' hk' => ?_
    obtain ⟨c,rfl⟩ := process_some hk'
    exact yields_some (hr t)
  · refine yields_bind fun k' hk' => ?_
    obtain rfl := Option.some.inj hk'
    exact yields_some (hr t)

theorem control_unmet {fuel : ℕ} {cmd : BitVec 8} (hold : Unmet k set_ t) :
    Yields (fun r => t ∈ r.1.lists.get (.suspend o) → Unmet r.1 r.2.1 t)
      (control fuel k o set_ cmd) := by
  refine Yields.ite (fun _ => ?_) fun _ => yields_some fun _ => hold
  refine (System.listResumeAll_empty fuel k).bind fun k₁ h₁ => yields_bind fun k₂ h₂ => ?_
  obtain ⟨c,rfl⟩ := process_some h₂
  refine yields_some fun hmem => ?_
  rw [show k₁.lists.get (.suspend o) = [] from h₁] at hmem
  cases hmem

/-- A reception by another thread can only clear events. -/
theorem recv_clears {u : θ} {set timeout : BitVec 32} {option : BitVec 8} :
    Yields (fun r => ∃ c, r.2.1 = set_ &&& c) (recv k o set_ u set option timeout) := by
  have hsame : ∃ c, set_ = set_ &&& c := ⟨BitVec.allOnes 32,BitVec.and_allOnes.symm⟩
  refine Yields.ite (fun _ => yields_some hsame) fun _ => Yields.ite (fun _ => yields_none) fun _ => ?_
  refine Yields.ite (fun _ => yields_some (clears _ set_ set)) fun _ => ?_
  refine Yields.ite (fun _ => yields_some hsame) fun _ => ?_
  exact yields_bind fun k₁ _ => yields_bind fun k₂ _ => yields_bind fun k₃ _ => yields_some hsame

omit [DecidableEq ο] in
theorem startTimer_request {time : BitVec 32} (h : k.startTimer t time = some k') :
    k'.lists = k.lists ∧ SameRequest (k.thread t) (k'.thread t) := by
  unfold Kernel.startTimer Kernel.timerStart at h
  split_ifs at h
  · obtain rfl := Option.some.inj h
    exact ⟨rfl,by simp [Kernel.modify],by simp [Kernel.modify]⟩
  · obtain rfl := Option.some.inj h
    exact ⟨rfl,rfl,rfl⟩

/-- A thread that goes to sleep is in the list, and its request is not satisfied. -/
theorem recv_parks {set timeout : BitVec 32} {option : BitVec 8}
    (ht : (k.thread t).stat = .ready) :
    Yields (fun r => r.2.2 = none → t ∈ r.1.lists.get (.suspend o) ∧ Unmet r.1 r.2.1 t)
      (recv k o set_ t set option timeout) := by
  refine Yields.ite (fun _ => yields_some fun h => by cases h) fun _ =>
    Yields.ite (fun _ => yields_none) fun _ => ?_
  refine Yields.ite (fun _ => yields_some fun h => by cases h) fun hunmet => ?_
  refine Yields.ite (fun _ => yields_some fun h => by cases h) fun _ => ?_
  refine yields_bind fun k₁ h₁ => yields_bind fun k₂ h₂ => yields_bind fun k₃ h₃ => ?_
  obtain ⟨s₁,s₂,q,-,hs₂,rfl⟩ := listSuspend_some (by simpa [Kernel.setError] using ht) h₁
  obtain ⟨hlists,hset,hinfo⟩ := startTimer_request h₂
  obtain ⟨c,rfl⟩ := process_some h₃
  obtain rfl := Option.some.inj hs₂
  refine yields_some fun _ => ⟨?_,fun _ => ?_⟩
  · change t ∈ k₂.lists.get (.suspend o)
    simp [hlists]
  · change satisfied set_ (k₂.thread t).eventSet (k₂.thread t).eventInfo = false
    rw [hset,hinfo]
    simpa [Kernel.modify] using hunmet

end Event

namespace System
open Event

variable {ο θ : Type}

/-- Waiting and sleeping threads are ready when they make the call, and a thread in a wait on an
object neither makes other calls nor is it put to sleep once more. -/
def Calm {σ : Type} [ListFamily σ (ListId ο) θ] (w : System σ ο θ) : Call ο θ → Prop
  | .ipc c => w.Lawful c
  | .sleep _ => ∀ t, w.kernel.currentThread = some t →
      w.place t = .idle ∧ (w.kernel.thread t).stat = .ready
  | .suspend t | .sleepReturn t => w.place t = .idle
  | .exit => ∀ t, w.kernel.currentThread = some t → w.place t = .idle
  | .excute => ∀ t, ListFamily.front w.kernel.lists (ListId.defunct (ο := ο)) = some t →
      w.place t = .idle
  | _ => True

variable [DecidableEq ο] [DecidableEq θ] {w : IdealSystem ο θ} {o : ο} {t : θ}

/-- Whoever sleeps in `recv` is in the list of its event, which does not satisfy its request. -/
def Watchful (w : IdealSystem ο θ) : Prop :=
  ∀ t o, w.place t = .watching o → (w.kernel.thread t).stat = .suspend →
    t ∈ w.kernel.lists.get (.suspend o) ∧
      ∀ set_, w.object o = .event set_ → Unmet w.kernel set_ t

/-- A thread in a wait that does not make the call is not put to sleep by it. -/
theorem Calm.admits {c : Call ο θ} (hc : w.Calm c) (ht : actor c ≠ some t)
    (hplace : w.place t ≠ .idle) : w.Admits (beside t) c := by
  have hidle : ∀ u, w.place u = .idle → u ≠ t := fun u hu hut => hplace (hut ▸ hu)
  cases c with
  | ipc c =>
      cases c with
      | take u | recvEvent u | sendWait u | recvMail u | sendMessage u | recvMessage u | proceed u =>
          have hut : u ≠ t := fun hut => ht (congrArg some hut)
          exact ⟨⟨hut,hut⟩,hc.2⟩
      | expire u => exact hc
      | release u => exact ⟨hidle u hc.2,hc.2⟩
      | sendEvent | tick => trivial
  | sleep tick => exact fun u hu => ⟨hidle u (hc u hu).1,(hc u hu).2⟩
  | suspend u | sleepReturn u => exact hidle u hc
  | exit | excute => exact fun u hu => hidle u (hc u hu)
  | _ => trivial

/-- The calls on an event by others than `t`. -/
theorem event_unmet (fuel : ℕ) {set_ : BitVec 32} {c : Call ο θ} (hx : w.object o = .event set_)
    (ho : w.target c = some o) (hold : Unmet w.kernel set_ t) :
    Yields (fun w' => ∀ set', w'.object o = .event set' → (∃ d, set' = set_ &&& d) ∨
      (t ∈ w'.kernel.lists.get (.suspend o) → Unmet w'.kernel set' t)) (step fuel w c) := by
  cases c with
  | ipc c =>
      unfold step ipc
      cases c with
      | proceed u =>
          intro w' hw' set' hset
          obtain ⟨-,hobject⟩ := proceed_still ho (by simp [hx,kind]) (by simp [hx,kind]) w' hw'
          rw [hobject,hx] at hset
          cases hset
          exact .inl ⟨BitVec.allOnes 32,BitVec.and_allOnes.symm⟩
      | expire | tick => cases ho
      | recvEvent =>
          obtain rfl := Option.some.inj ho
          simp only [hx]
          refine recv_clears.map fun r hr set' hset => .inl ?_
          obtain rfl : r.2.1 = set' := by simpa [finish] using hset
          exact hr
      | sendEvent =>
          obtain rfl := Option.some.inj ho
          simp only [hx]
          refine (send_unmet hold).map fun r hr set' hset => .inr ?_
          obtain rfl : r.2.1 = set' := by simpa [change] using hset
          exact hr
      | _ =>
          obtain rfl := Option.some.inj ho
          simp only [hx]
          exact yields_none
  | control =>
      obtain rfl := Option.some.inj ho
      unfold step control
      simp only [hx]
      refine (control_unmet hold).map fun r hr set' hset => .inr ?_
      obtain rfl : r.2.1 = set' := by simpa [change] using hset
      exact hr
  | _ => cases ho

theorem finish_place (u : θ) (k : IdealKernel ο θ) (x : Object θ) (p : Place ο) :
    (w.finish o u k x p).place u = p := by
  simp [finish]

theorem posted_place (u : θ) (value : BitVec 32) (o' : ο)
    (r : IdealKernel ο θ × MailBox × Progress ℤ) : (w.posted o u value r).place u ≠ .watching o' := by
  obtain ⟨k,m,e | ⟨d,n⟩⟩ := r <;> simp [posted,finish]

theorem fetched_place (u : θ) (o' : ο)
    (r : IdealKernel ο θ × MailBox × Progress (ℤ × Option (BitVec 32))) :
    (w.fetched o u r).place u ≠ .watching o' := by
  obtain ⟨k,m,e | ⟨d,n⟩⟩ := r <;> simp [fetched,finish]

theorem received_place (u : θ) (size : ℕ) (o' : ο)
    (r : IdealKernel ο θ × MessageQueue × Progress (ℤ ⊕ ℕ)) :
    (w.received o u size r).place u ≠ .watching o' := by
  obtain ⟨k,q,(e | e) | ⟨d,n⟩⟩ := r <;> simp [received,finish]

theorem proceed_place : Yields (fun w' => w'.place t ≠ .watching o) (w.proceed t) := by
  unfold proceed
  cases w.place t with
  | idle => exact yields_none
  | taking o' | locking o' | watching o' =>
      refine yields_some ?_
      rw [finish_place]
      simp
  | posting o' =>
      dsimp only
      cases w.object o' with
      | mailbox m => exact yields_map fun r _ => posted_place t _ o r
      | _ => exact yields_none
  | fetching o' =>
      dsimp only
      cases w.object o' with
      | mailbox m => exact yields_map fun r _ => fetched_place t o r
      | _ => exact yields_none
  | receiving o' =>
      dsimp only
      cases w.object o' with
      | queue q => exact yields_map fun r _ => received_place t _ o r
      | _ => exact yields_none
  | sending o' =>
      dsimp only
      cases w.object o' with
      | queue q =>
          refine yields_map fun r _ => ?_
          rw [finish_place]
          simp
      | _ => exact yields_none
  | copying o' =>
      dsimp only
      cases w.object o' with
      | queue q =>
          refine yields_some ?_
          rw [finish_place]
          simp
      | _ => exact yields_none

/-- The thread that makes the call. -/
theorem actor_watchful (fuel : ℕ) {c : Call ο θ} (hc : w.Calm c) (ht : actor c = some t) :
    Yields (fun w' => w'.place t = .watching o → t ∈ w'.kernel.lists.get (.suspend o) ∧
      ∀ set_, w'.object o = .event set_ → Unmet w'.kernel set_ t) (step fuel w c) := by
  cases c with
  | ipc c =>
      unfold step ipc
      cases c with
      | proceed u =>
          obtain rfl := Option.some.inj ht
          exact proceed_place.imp fun w' hne hplace => absurd hplace hne
      | take u o' =>
          obtain rfl := Option.some.inj ht
          dsimp only
          cases w.object o' with
          | semaphore | mutex =>
              refine yields_map fun r _ hplace => ?_
              rw [finish_place] at hplace
              split_ifs at hplace
          | _ => exact yields_none
      | recvEvent u o' =>
          obtain rfl := Option.some.inj ht
          dsimp only
          cases w.object o' with
          | event set_ =>
              refine (recv_parks hc.2.2).map fun r hr hplace => ?_
              rw [finish_place] at hplace
              split_ifs at hplace with hnone
              obtain rfl := Place.watching.inj hplace
              obtain ⟨hmem,hunmet⟩ := hr (by simpa using hnone)
              refine ⟨hmem,fun set' hset => ?_⟩
              obtain rfl : r.2.1 = set' := by simpa [finish] using hset
              exact hunmet
          | _ => exact yields_none
      | sendWait u o' =>
          obtain rfl := Option.some.inj ht
          dsimp only
          cases w.object o' with
          | mailbox => exact yields_map fun r _ hplace => absurd hplace (posted_place u _ o r)
          | _ => exact yields_none
      | recvMail u o' =>
          obtain rfl := Option.some.inj ht
          dsimp only
          cases w.object o' with
          | mailbox => exact yields_map fun r _ hplace => absurd hplace (fetched_place u o r)
          | _ => exact yields_none
      | sendMessage u o' =>
          obtain rfl := Option.some.inj ht
          dsimp only
          cases w.object o' with
          | queue =>
              refine yields_map fun r _ hplace => ?_
              obtain ⟨q,e | msg⟩ := r
              · cases hc.2.1.symm.trans hplace
              · rw [finish_place] at hplace
                cases hplace
          | _ => exact yields_none
      | recvMessage u o' =>
          obtain rfl := Option.some.inj ht
          dsimp only
          cases w.object o' with
          | queue => exact yields_map fun r _ hplace => absurd hplace (received_place u _ o r)
          | _ => exact yields_none
      | release | sendEvent | expire | tick => cases ht
  | _ => cases ht

theorem step_watchful (fuel : ℕ) {c : Call ο θ} (hc : w.Calm c) (H : Watchful w) :
    Yields Watchful (step fuel w c) := by
  intro w' hw' t o hplace hstat
  by_cases ht : actor c = some t
  · exact actor_watchful fuel hc ht w' hw' hplace
  have T := step_touches fuel c w' hw'
  rw [T.place ht] at hplace
  -- `t` has slept all the time, with the same request
  have R : Rests t (.suspend o) (w.kernel.thread t) w'.kernel := by
    refine step_keeps (rests_system (l := .suspend o) trivial) fuel (hc.admits ht (by simp [hplace]))
      (fun _ _ => ⟨trivial,trivial⟩) (fun hs => ?_) w' hw'
    exact ⟨hs,⟨rfl,rfl⟩,(H t o hplace hs).1⟩
  obtain ⟨hs,hreq,hmem⟩ := R hstat
  refine ⟨hmem,fun set' hset => ?_⟩
  have hold := (H t o hplace hs).2
  have hsame : ∀ d set_, w.object o = .event set_ → Unmet w'.kernel (set_ &&& d) t := by
    intro d set_ hx _
    rw [hreq.set,hreq.info]
    exact satisfied_clear (hold set_ hx hs)
  by_cases ho : w.target c = some o
  · have hkind := T.same_kind o
    rw [hset] at hkind
    cases hx : w.object o with
    | event set_ =>
        rcases event_unmet fuel hx ho (hold set_ hx) w' hw' set' hset with ⟨d,rfl⟩ | h
        · exact hsame d set_ hx
        · exact h hmem
    | _ =>
        rw [hx] at hkind
        cases hkind
  · rw [T.object ho] at hset
    have := hsame (BitVec.allOnes 32) set' hset
    rwa [BitVec.and_allOnes] at this

/-- In every state of a run, a thread that sleeps in `recv` is in the list of its event, and the
events that have arrived do not satisfy its request. -/
theorem no_event_is_missed {fuel : ℕ} {cs : List (Call ο θ)} (hstart : ∀ t, w.place t = .idle)
    (hcs : AllSteps (step fuel) Calm w cs) :
    Throughout (step fuel) (fun w => ∀ t o set_, w.place t = .watching o →
      (w.kernel.thread t).stat = .suspend → w.object o = .event set_ →
      t ∈ w.kernel.lists.get (.suspend o) ∧
        satisfied set_ (w.kernel.thread t).eventSet (w.kernel.thread t).eventInfo = false) w cs := by
  refine throughout_of_invariant (I := Watchful) (fun w H t o set_ hplace hs hx => ?_)
    (fun _ _ _ H hc h => step_watchful fuel hc H _ h) (fun t o hplace => ?_) hcs
  · obtain ⟨hmem,hunmet⟩ := H t o hplace hs
    exact ⟨hmem,hunmet set_ hx hs⟩
  · cases (hstart t).symm.trans hplace

instance {σ : Type} [ListFamily σ (ListId ο) θ] (w : System σ ο θ) : ∀ c, Decidable (w.Calm c)
  | .ipc c => inferInstanceAs (Decidable (w.Lawful c))
  | .sleep _ =>
      inferInstanceAs (Decidable (∀ t ∈ w.kernel.currentThread,
        w.place t = .idle ∧ (w.kernel.thread t).stat = .ready))
  | .suspend t | .sleepReturn t => inferInstanceAs (Decidable (w.place t = .idle))
  | .exit => inferInstanceAs (Decidable (∀ t ∈ w.kernel.currentThread, w.place t = .idle))
  | .excute =>
      inferInstanceAs (Decidable (∀ t ∈ ListFamily.front w.kernel.lists (ListId.defunct (ο := ο)),
        w.place t = .idle))
  | .control _ _ _ | .startup _ | .start | .resume _ | .changePriority _ _ | .enterCritical
  | .exitCritical => .isTrue trivial

/-- Thread 1 waits for two events and thread 2 for a third one. The wait of thread 2 times out, and
it is still in the list when the second event for thread 1 arrives. -/
def watchers : List (Call (Fin 5) (Fin 4)) :=
  [.startup 0,.startup 2,.startup 3,.startup 1,.start,.ipc (.recvEvent 1 2 3 FLAG_AND (-1)),
    .ipc (.recvEvent 2 2 4 FLAG_OR 5),.ipc (.sendEvent 2 1),.ipc (.expire 2),.ipc (.proceed 2),
    .ipc (.sendEvent 2 2),.ipc (.proceed 1)]

theorem no_event_is_missed_watchers :
    (watchers.foldlM (step 4) (fresh.map CheckedLists.lists)).map
      (fun w => (w.kernel.lists.get (.suspend 2),(w.kernel.thread 1).stat)) = some ([2],.ready) ∧
    Throughout (step 4) (fun w => ∀ t o set_, w.place t = .watching o →
      (w.kernel.thread t).stat = .suspend → w.object o = .event set_ →
      t ∈ w.kernel.lists.get (.suspend o) ∧
        satisfied set_ (w.kernel.thread t).eventSet (w.kernel.thread t).eventInfo = false)
      (fresh.map CheckedLists.lists) watchers :=
  ⟨by decide +kernel,no_event_is_missed (fun _ => rfl) (by decide +kernel)⟩

end System

end CosKernel
