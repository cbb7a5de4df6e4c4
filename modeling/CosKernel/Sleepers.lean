import CosKernel.EventWaiters

/-!
# Who sleeps where

As long as no wait ends by a timeout and nobody else resumes a thread in a wait, a thread is in the
wait list of the call in which it sleeps, once, and in no other wait list, and no error has been
reported to it. This is said of one thread at a time: what the others do keeps it, and what the
thread itself does is to be kept awake, to be put to sleep or to wake somebody.
-/
namespace CosKernel
open PartialMorphisms TransitionRuns Kernel Ipc

namespace Kernel

variable {ο θ : Type} [DecidableEq ο] [DecidableEq θ]
variable {k k' : IdealKernel ο θ} {l : ListId ο} {t u : θ} {b : Option (ListId ο)} {y : Thread}

/-- The thread `t` waits in the list `b` if it sleeps, and in no other one. -/
structure Sits (t : θ) (b : Option (ListId ο)) (k : IdealKernel ο θ) : Prop where
  count : ∀ l : ListId ο, l.IsWait → (k.lists.get l).count t =
    if (k.thread t).stat = .suspend ∧ b = some l then 1 else 0
  error : (k.thread t).stat = .suspend → b ≠ none → (k.thread t).error = ERR_OK

/-- What may happen beside a thread in a wait in the list `b`, or outside of all waits. -/
def seated (t : θ) (b : Option (ListId ο)) : Roles ο θ where
  acts u := u = t → b = none
  waits u := u ≠ t
  wakes u := u = t → b = none
  list l := l.IsWait
  finds l u := u = t → b = some l

theorem found_mem (h : Found k.lists l t) : t ∈ k.lists.get l := by
  have hhead : ∀ xs : List θ, xs.head? = some t → t ∈ xs := fun xs hxs => List.mem_of_mem_head? hxs
  have hafter : ∀ (xs : List θ) u, Sequences.after u xs = some t → t ∈ xs := by
    intro xs u hxs
    induction xs with
    | nil => cases hxs
    | cons x xs ih =>
        unfold Sequences.after at hxs
        split_ifs at hxs
        · exact List.mem_cons_of_mem x (hhead xs hxs)
        · exact List.mem_cons_of_mem x (ih hxs)
  rcases h with h | h | ⟨u,h⟩
  · exact hhead _ h
  · exact hhead _ h
  · exact hafter _ u h

/-- At most the thread `u` has changed, and no wait list as far as `t` is concerned. -/
theorem Sits.update (H : Sits t b k) (h : k'.thread = Function.update k.thread u y)
    (hy : u = t → b ≠ none → (y.stat = .suspend ↔ (k.thread t).stat = .suspend) ∧
      y.error = (k.thread t).error)
    (hl : ∀ l : ListId ο, l.IsWait → (k'.lists.get l).count t = (k.lists.get l).count t) :
    Sits t b k' := by
  have hkey : b ≠ none → ((k'.thread t).stat = .suspend ↔ (k.thread t).stat = .suspend) ∧
      (k'.thread t).error = (k.thread t).error := by
    intro hb
    rw [h]
    by_cases hut : t = u
    · subst hut
      simpa using hy rfl hb
    · simp [hut]
  refine ⟨fun l hwait => ?_,fun hs hb => ?_⟩
  · rw [hl l hwait,H.count l hwait]
    cases b with
    | none => simp
    | some l' => simp only [(hkey (by simp)).1]
  · rw [(hkey hb).2]
    exact H.error ((hkey hb).1.mp hs) hb

theorem Sits.mem (H : Sits t b k) (hl : l.IsWait) :
    t ∈ k.lists.get l ↔ (k.thread t).stat = .suspend ∧ b = some l := by
  rw [← List.count_pos_iff,H.count l hl]
  split_ifs with h <;> simp [h]

theorem Sits.congr (H : Sits t b k) (h : k'.thread = k.thread)
    (hl : ∀ l : ListId ο, l.IsWait → (k'.lists.get l).count t = (k.lists.get l).count t) :
    Sits t b k' :=
  H.update (u := t) (y := k.thread t) (by simp [h]) (fun _ _ => ⟨Iff.rfl,rfl⟩) hl

theorem Sits.removeThread (H : Sits t b k) : Yields (Sits t b) (k.removeThread u) := by
  intro k' hk'
  obtain ⟨s,r,hs,rfl⟩ := removeThread_some hk'
  obtain rfl := Option.some.inj hs
  exact H.congr rfl fun l hl => by simp [isWait_ne_ready hl]

/-- Another thread is resumed, or `t` outside of all waits. -/
theorem Sits.resume (H : Sits t b k) (hu : u = t → b = none) :
    Yields (fun r => Sits t b r.1) (k.resume u) := by
  intro r hr
  by_cases hs : (k.thread u).stat = .suspend
  · obtain ⟨s,q,hs,hk⟩ := resume_some hs hr
    obtain rfl := Option.some.inj hs
    refine H.update (congrArg Kernel.thread hk) (fun hut hb => absurd (hu hut) hb) fun l hl => ?_
    rw [hk]
    simp [isWait_ne_ready hl]
  · rwa [resume_other hs hr]

/-- The thread `t` is taken out of its list and resumed. -/
theorem Sits.wakeOwn {x : Thread} (H : Sits t (some l) k) (hl : l.IsWait)
    (hx : SameState (k.thread t) x) :
    Yields (fun r => Sits t (some l) r.1) (Kernel.resume {k with
      thread := Function.update k.thread t x
      lists := k.lists.set l ((k.lists.get l).erase t)} t) := by
  intro r hr
  have hcount : ∀ l' : ListId ο, l'.IsWait →
      ((k.lists.set l ((k.lists.get l).erase t)).get l').count t = 0 := by
    intro l' hl'
    have hc := H.count l' hl'
    by_cases hll : l' = l
    · subst hll
      rw [Sequences.set_get_self,List.count_erase_self,hc]
      split_ifs <;> rfl
    · rw [Sequences.set_get_of_ne _ _ hll,hc,if_neg]
      exact fun h => hll (Option.some.inj h.2).symm
  by_cases hs : (k.thread t).stat = .suspend
  · obtain ⟨s,q,hs',hk⟩ := resume_some (k := Kernel.mk _ _ _ _ _) (by simpa [hx.stat] using hs) hr
    obtain rfl := Option.some.inj hs'
    rw [hk]
    refine ⟨fun l' hl' => ?_,fun hstat => by simp at hstat⟩
    simpa [isWait_ne_ready hl'] using hcount l' hl'
  · rw [resume_other (k := Kernel.mk _ _ _ _ _) (by simpa [hx.stat] using hs) hr]
    refine ⟨fun l' hl' => ?_,fun hstat => absurd hstat (by simpa [hx.stat] using hs)⟩
    simpa [hx.stat,hs] using hcount l' hl'

theorem sits_kept : KernelInvariant (seated t b) (Sits t b) where
  found {k l u} hl H hf hut := by
    subst hut
    exact ((H.mem hl).mp (found_mem hf)).2
  modify hu hg _ H := H.update rfl (fun hut hb => absurd (hu hut) hb) fun _ _ => rfl
  request hu _ H := H.update rfl (fun hut => absurd hut hu) fun _ _ => rfl
  suspend {k u} hu H r hr := by
    by_cases hs : (k.thread u).stat = .ready
    · obtain ⟨s,q,hs,hk⟩ := suspend_some hs hr
      obtain rfl := Option.some.inj hs
      refine H.update (congrArg Kernel.thread hk) (fun hut hb => absurd (hu hut) hb) fun l hl => ?_
      rw [hk]
      simp [isWait_ne_ready hl]
    · rw [Kernel.suspend,if_pos hs] at hr
      cases hr
      exact H
  changePriority {k} u p H k' hk' := by
    refine H.update (changePriority_some hk').1 (fun hut _ => ?_) fun l hl => ?_
    · subst hut
      exact ⟨Iff.rfl,rfl⟩
    · rw [changePriority_get hl hk']
  timerStart tick hu _ H :=
    Yields.ite (fun _ => yields_some (H.update rfl (fun hut hb => absurd (hu hut) hb) fun _ _ => rfl))
      fun _ => yields_none
  pushBack {k l' u} _ hu H s hs := by
    obtain rfl := Option.some.inj hs
    refine H.congr rfl fun l _ => ?_
    by_cases hll : l = l'
    · subst hll
      simpa [List.count_singleton] using (show u ≠ t from hu)
    · simp [hll]
  wake {k k₁ l' u} hl' hu hk H := by
    obtain ⟨x,hx,rfl⟩ := hk
    refine yields_bind fun s hs => ?_
    obtain rfl := Option.some.inj hs
    by_cases hut : u = t
    · subst hut
      obtain rfl := hu rfl
      exact H.wakeOwn hl' hx
    · refine Sits.resume (k := Kernel.mk _ _ _ _ _) ?_ fun h => absurd h hut
      refine H.update rfl (fun h => absurd h hut) fun l _ => ?_
      by_cases hll : l = l'
      · subst hll
        simp [List.count_erase_of_ne (Ne.symm hut)]
      · simp [hll]
  process {k} H k' hk' := by
    obtain ⟨c,rfl⟩ := process_some hk'
    exact H.congr rfl fun _ _ => rfl

theorem sits_system : SystemInvariant (seated t b) (Sits t b) where
  toKernelInvariant := sits_kept
  current _ _ H := H.congr rfl fun _ _ => rfl
  spend H := H.update rfl (fun hut _ => by
    subst hut
    exact ⟨Iff.rfl,rfl⟩) fun _ _ => rfl
  begin {k u} _ hinit H r hr := by
    obtain ⟨s,q,hs,hk⟩ := resume_some (by simp) hr
    obtain rfl := Option.some.inj hs
    refine H.update (u := u) (y := (r.1.thread u)) ?_ (fun hut _ => ?_) fun l hl => ?_
    · rw [hk]
      simp [Kernel.modify]
    · subst hut
      rw [hk]
      simp [hinit,Kernel.modify]
    · have hsame : r.1.lists.get l = k.lists.get l := Holds.resume (reads_get l) hl (k := k.modify u _) rfl r hr
      rw [hsame]
  resume hu H := H.resume hu
  expire {k u} hu _ H k' hk' := by
    obtain ⟨-,x,hx,-⟩ := expire_thread hk'
    exact H.update hx (fun hut hb => absurd (hu hut) hb) fun l hl => by rw [expire_queue hk' hl]
  rotate {k u s₁ s₂} _ H h₁ h₂ := by
    obtain rfl := Option.some.inj h₁
    obtain rfl := Option.some.inj h₂
    exact H.congr rfl fun l hl => by simp [isWait_ne_ready hl]
  remove _ H := H.removeThread
  close hu H := H.update rfl (fun hut hb => absurd (hu hut) hb) fun _ _ => rfl
  defunct {k} u H s hs := by
    obtain rfl := Option.some.inj hs
    exact H.congr rfl fun l hl => by simp [isWait_ne_defunct hl]
  reap {k} u H s hs := by
    obtain rfl := Option.some.inj hs
    exact H.congr rfl fun l hl => by simp [isWait_ne_defunct hl]

/-- What a call of `t` that may wait in `l` does to the threads and their lists: it keeps them,
puts `t` to sleep or wakes the first thread of some list. -/
inductive Acts (k : IdealKernel ο θ) (l : ListId ο) (t : θ) : IdealKernel ο θ → Bool → Prop where
  | keeps {k' : IdealKernel ο θ} (hk : Keeps k k' t) : Acts k l t k' false
  | parks {k' : IdealKernel ο θ} (hk : Parks k k' l t) : Acts k l t k' true
  | wakes {k' : IdealKernel ο θ} {m : ListId ο} {u : θ} {us : List θ} (hm : m.IsWait)
      (hq : k.lists.get m = u::us) (hk : Wakes k k' m u) : Acts k l t k' false

omit [DecidableEq ο] [DecidableEq θ] in
theorem keeps_refl (k : IdealKernel ο θ) (t : θ) : Keeps k k t :=
  ⟨fun _ => rfl,fun _ _ => rfl,fun _ _ => rfl⟩

omit [DecidableEq ο] in
theorem keeps_modify {g : Thread → Thread} (hg : ∀ x, (g x).stat = x.stat) :
    Keeps k (k.modify t g) t := by
  refine ⟨fun u => ?_,fun u hu => by simp [Kernel.modify,hu],fun _ _ => rfl⟩
  by_cases hu : u = t
  · simp [Kernel.modify,hu,hg]
  · simp [Kernel.modify,hu]

theorem Sits.awake (H : Sits t b k) (ht : (k.thread t).stat = .ready) (hl : l.IsWait) :
    (k.lists.get l).count t = 0 := by
  rw [H.count l hl,if_neg]
  simp [ht]

/-- Nobody finds a ready thread in a list. -/
theorem Sits.outside (hcount : ∀ l : ListId ο, l.IsWait → (k.lists.get l).count t = 0) :
    Sits t none k :=
  ⟨fun l hl => by simp [hcount l hl],fun _ h => absurd rfl h⟩

theorem Acts.sits {blocked : Bool} (h : Acts k l t k' blocked) (hl : l.IsWait) (H : Sits t b k)
    (ht : (k.thread t).stat = .ready) : Sits t (if blocked then some l else none) k' := by
  cases h with
  | keeps hk => exact Sits.outside fun l' hl' => by rw [hk.queue l' hl',H.awake ht hl']
  | parks hk =>
      refine ⟨fun l' hl' => ?_,fun _ _ => hk.error⟩
      by_cases hll : l' = l
      · subst hll
        simp [hk.own,hk.stat,H.awake ht hl]
      · rw [hk.queue l' hl' hll,H.awake ht hl',if_neg]
        simp [Ne.symm hll]
  | @wakes l₁ u us hl₁ hq hk =>
      refine Sits.outside fun l' hl' => ?_
      by_cases hll : l' = l₁
      · subst hll
        refine Nat.le_zero.mp ?_
        rw [hk.own,← H.awake ht hl']
        exact List.Sublist.count_le t List.erase_sublist
      · rw [hk.queue l' hl' hll,H.awake ht hl']

/-- The blocking part of the waits in suspend lists. -/
theorem parks_of_block {o : ο} {time : BitVec 32} {k₁ k₂ : IdealKernel ο θ}
    (ht : (k.thread t).stat = .ready) (he : (k.thread t).error = ERR_OK)
    (h₁ : k.listSuspend o t = some k₁) (h₂ : k₁.startTimer t time = some k₂)
    (h₃ : k₂.process = some k') : Parks k k' (.suspend o) t := by
  simp only [listSuspend,Option.bind_eq_bind,Option.bind_eq_some_iff,Option.some.injEq] at h₁
  obtain ⟨⟨k₀,e⟩,h₀,s,hs,rfl⟩ := h₁
  exact parks_of_suspend trivial ht he h₀ hs h₂ h₃

end Kernel

section outcomes
open Kernel

variable {ο θ : Type} [DecidableEq ο] [DecidableEq θ]
variable {k : IdealKernel ο θ} {o : ο} {t : θ} {tick timeout tickDelta : BitVec 32}

theorem Semaphore.take_acts {value : BitVec 16} (ht : (k.thread t).stat = .ready) :
    Yields (fun r => Acts k (.suspend o) t r.1 r.2.2.isNone)
      (Semaphore.take k o value t timeout) := by
  rintro ⟨k',v,r⟩ hr
  cases take_takes ht hr with
  | free | refused => exact .keeps (keeps_refl k t)
  | blocked _ hk => exact .parks hk

/-- Inheriting a priority changes neither the states of threads nor who waits where. -/
theorem Mutex.inherit_keeps {k' : IdealKernel ο θ} {u : θ} (h : Mutex.inherit k u t = some k') :
    Keeps k k' t ∧ (k'.thread t).error = (k.thread t).error := by
  unfold Mutex.inherit at h
  split_ifs at h
  · have hthread : ∀ v, (k'.thread v).stat = (k.thread v).stat ∧
        (k'.thread v).error = (k.thread v).error := by
      intro v
      rw [(changePriority_some h).1]
      by_cases hv : v = u
      · simp [hv]
      · simp [hv]
    exact ⟨⟨fun v => (hthread v).1,fun v _ => (hthread v).2,
      fun l hl => changePriority_get hl h⟩,(hthread t).2⟩
  · obtain rfl := Option.some.inj h
    exact ⟨keeps_refl k t,rfl⟩

theorem Mutex.take_acts {m : Mutex θ} (ht : (k.thread t).stat = .ready) :
    Yields (fun r => Acts k (.suspend o) t r.1 r.2.2.isNone) (Mutex.take k o m t timeout) := by
  have hk := keeps_setError k t ERR_OK
  refine Yields.ite (fun _ => yields_some (.keeps hk)) fun _ =>
    Yields.ite (fun _ => yields_some (.keeps hk)) fun _ => ?_
  refine Yields.ite (fun _ => yields_some (.keeps (hk.trans (keeps_setError _ t _)))) fun _ => ?_
  refine yields_bind fun u _ => yields_bind fun k₁ h₁ => yields_bind fun k₂ h₂ => ?_
  refine yields_bind fun k₃ h₃ => yields_bind fun k₄ h₄ => yields_some (.parks ?_)
  obtain ⟨hk₁,he⟩ := inherit_keeps h₁
  have hkeeps := hk.trans hk₁
  refine hkeeps.parks trivial (parks_of_block ((hkeeps.stat t).trans ht) ?_ h₂ h₃ h₄)
  rw [he]
  simp [Kernel.setError]

theorem Event.recv_acts {set_ set : BitVec 32} {option : BitVec 8}
    (ht : (k.thread t).stat = .ready) :
    Yields (fun r => Acts k (.suspend o) t r.1 r.2.2.isNone)
      (Event.recv k o set_ t set option timeout) := by
  have hk := keeps_setError k t ERR_OK
  refine Yields.ite (fun _ => yields_some (.keeps (keeps_refl k t))) fun _ =>
    Yields.ite (fun _ => yields_none) fun _ => Yields.ite (fun _ => yields_some (.keeps hk)) fun _ => ?_
  refine Yields.ite (fun _ => yields_some (.keeps (hk.trans (keeps_setError _ t _)))) fun _ => ?_
  refine yields_bind fun k₂ h₂ => yields_bind fun k₃ h₃ => yields_bind fun k₄ h₄ =>
    yields_some (.parks ?_)
  have hkeeps := hk.trans (keeps_modify (k := k.setError t ERR_OK) (t := t)
    (g := fun x => {x with eventSet := set, eventInfo := option}) fun _ => rfl)
  exact hkeeps.parks trivial (parks_of_block ((hkeeps.stat t).trans ht) (by simp [Kernel.setError])
    h₂ h₃ h₄)

omit [DecidableEq ο] in
theorem MailBox.sends_acts {m m' : MailBox} {value : BitVec 32} {k' : IdealKernel ο θ}
    {r : Progress ℤ} (h : Sends k o m t value k' m' r) : Acts k (.sender o) t k' r.isWaiting := by
  cases h with
  | full _ hk => exact .keeps hk
  | blocked _ _ _ hk => exact .parks hk
  | alone => exact .keeps (keeps_refl k t)
  | waking u us _ hq hk => exact .wakes (m := .suspend o) trivial hq hk

omit [DecidableEq ο] in
theorem MailBox.receives_acts {m m' : MailBox} {k' : IdealKernel ο θ}
    {r : Progress (ℤ × Option (BitVec 32))} (h : Receives k o m t k' m' r) :
    Acts k (.suspend o) t k' r.isWaiting := by
  cases h with
  | empty _ hk => exact .keeps hk
  | blocked _ _ _ hk => exact .parks hk
  | alone => exact .keeps (keeps_refl k t)
  | waking u us _ _ hq hk => exact .wakes (m := .sender o) trivial hq hk

namespace MessageQueue

variable {q : MessageQueue}

/-- The outcomes of a part of `recv` from the test of the loop on. -/
inductive Receives (k : IdealKernel ο θ) (o : ο) (q : MessageQueue) (t : θ) :
    IdealKernel ο θ → MessageQueue → Progress (ℤ ⊕ ℕ) → Prop where
  | empty {k' : IdealKernel ο θ} (hempty : q.entry = 0) (hk : Keeps k k' t) :
      Receives k o q t k' q (.returned (.inl (-ERR_TIMEOUT)))
  | blocked {k' : IdealKernel ο θ} (timeout tickDelta : BitVec 32) (hempty : q.entry = 0)
      (hk : Parks k k' (.suspend o) t) : Receives k o q t k' q (.waiting timeout tickDelta)
  | taken {q' : MessageQueue} (msg : ℕ) (hentry : q.entry ≠ 0) (hq : q'.entry = q.entry-1) :
      Receives k o q t k q' (.returned (.inr msg))

theorem recvLoop_receives (ht : (k.thread t).stat = .ready) :
    Yields (fun r => Receives k o q t r.1 r.2.1 r.2.2)
      (recvLoop k o q tick t timeout tickDelta) := by
  have hk := keeps_setError k t ERR_OK
  refine Yields.ite (fun hempty => Yields.ite (fun _ => yields_some ?_) fun _ => ?_) fun hentry => ?_
  · exact .empty hempty (hk.trans (keeps_setError _ t _))
  · refine yields_bind fun k₁ h₁ => yields_bind fun k₂ h₂ => yields_bind fun k₃ h₃ =>
      yields_some (.blocked _ _ hempty ?_)
    exact hk.parks trivial (parks_of_block ((hk.stat t).trans ht) (by simp [Kernel.setError]) h₁ h₂ h₃)
  · exact yields_bind fun msg _ => yields_some (.taken msg hentry rfl)

theorem recv_receives {size : ℕ} (ht : (k.thread t).stat = .ready) :
    Yields (fun r => Receives k o q t r.1 r.2.1 r.2.2) (recv k o q tick t size timeout) :=
  Yields.ite (fun _ => yields_none) fun _ =>
    Yields.ite (fun h => yields_some (.empty h.1 (keeps_refl k t))) fun _ => recvLoop_receives ht

omit [DecidableEq ο] in
theorem receives_acts {q' : MessageQueue} {k' : IdealKernel ο θ} {r : Progress (ℤ ⊕ ℕ)}
    (h : Receives k o q t k' q' r) : Acts k (.suspend o) t k' r.isWaiting := by
  cases h with
  | empty _ hk => exact .keeps hk
  | blocked _ _ _ hk => exact .parks hk
  | taken => exact .keeps (keeps_refl k t)

/-- Nobody waits, or the first thread that does is woken. -/
theorem notify_wakes : Yields (fun r => (k.lists.get (.suspend o) = [] ∧ r.1 = k) ∨
    ∃ u us, k.lists.get (.suspend o) = u::us ∧ Wakes k r.1 (.suspend o) u) (notify k o) := by
  refine Yields.ite (fun h => yields_some (.inl ⟨List.isEmpty_iff.mp h,rfl⟩)) fun hne => ?_
  refine yields_bind fun r hr => yields_bind fun k' hk' => yields_some ?_
  rcases listResume_wakes hr with ⟨hq,-,-⟩ | ⟨u,us,hq,hk,-⟩
  · exact absurd (List.isEmpty_iff.mpr hq) hne
  · exact .inr ⟨u,us,hq,hk.process hk'⟩

end MessageQueue

end outcomes

namespace System

variable {ο θ : Type} [DecidableEq ο] [DecidableEq θ] {w : IdealSystem ο θ} {o : ο} {t : θ}

/-- No timer of a thread in a wait expires, and nobody else starts or resumes it. -/
def Undisturbed (w : IdealSystem ο θ) (c : Call ο θ) : Prop :=
  w.Calm c ∧ match c with
    | .ipc (.expire t) => (w.place t).list = none
    | .startup t | .resume t => w.place t = .idle
    | _ => True

/-- Every thread waits in the list of the call in which it sleeps. -/
def Seated (w : IdealSystem ο θ) : Prop := ∀ t, Sits t (w.place t).list w.kernel

/-- What others do is no business of a thread in a wait. -/
theorem Undisturbed.admits {c : Call ο θ} (hc : w.Undisturbed c) (ht : actor c ≠ some t) :
    w.Admits (seated t (w.place t).list) c := by
  obtain ⟨hcalm,hc⟩ := hc
  have hidle : ∀ u, w.place u = .idle → u = t → (w.place t).list = none := by
    rintro u hu rfl
    rw [hu]
    rfl
  cases c with
  | ipc c =>
      cases c with
      | take u | recvEvent u | sendWait u | recvMail u | sendMessage u | recvMessage u | proceed u =>
          have hut : u ≠ t := fun hut => ht (congrArg some hut)
          exact ⟨⟨fun h => absurd h hut,hut⟩,hcalm.2⟩
      | expire u =>
          refine ⟨?_,hcalm.2⟩
          rintro rfl
          exact hc
      | release u => exact ⟨hidle u hcalm.2,hcalm.2⟩
      | sendEvent | tick => trivial
  | sleep tick => exact fun u hu => ⟨hidle u (hcalm u hu).1,(hcalm u hu).2⟩
  | suspend u | sleepReturn u => exact hidle u hcalm
  | startup u | resume u => exact hidle u hc
  | exit | excute => exact fun u hu => hidle u (hcalm u hu)
  | _ => trivial

/-- A part of a call of `t` has ended behind a wait in `l`, or with the thread in no wait. -/
theorem finish_sits {l : ListId ο} {k : IdealKernel ο θ} {x : Object θ} {p : Place ο} {blocked : Bool}
    (h : Acts w.kernel l t k blocked) (hl : l.IsWait) (H : Seated w)
    (ht : (w.kernel.thread t).stat = .ready) (hp : p.list = if blocked then some l else none) :
    Sits t ((w.finish o t k x p).place t).list (w.finish o t k x p).kernel := by
  rw [finish_place,hp]
  exact h.sits hl (H t) ht

theorem posted_sits {value : BitVec 32} {r : IdealKernel ο θ × MailBox × Progress ℤ}
    (h : Acts w.kernel (.sender o) t r.1 r.2.2.isWaiting) (H : Seated w)
    (ht : (w.kernel.thread t).stat = .ready) :
    Sits t ((w.posted o t value r).place t).list (w.posted o t value r).kernel := by
  obtain ⟨k,m,e | ⟨d,n⟩⟩ := r <;> exact finish_sits h trivial H ht rfl

theorem fetched_sits {r : IdealKernel ο θ × MailBox × Progress (ℤ × Option (BitVec 32))}
    (h : Acts w.kernel (.suspend o) t r.1 r.2.2.isWaiting) (H : Seated w)
    (ht : (w.kernel.thread t).stat = .ready) :
    Sits t ((w.fetched o t r).place t).list (w.fetched o t r).kernel := by
  obtain ⟨k,m,e | ⟨d,n⟩⟩ := r <;> exact finish_sits h trivial H ht rfl

theorem received_sits {size : ℕ} {r : IdealKernel ο θ × MessageQueue × Progress (ℤ ⊕ ℕ)}
    (h : Acts w.kernel (.suspend o) t r.1 r.2.2.isWaiting) (H : Seated w)
    (ht : (w.kernel.thread t).stat = .ready) :
    Sits t ((w.received o t size r).place t).list (w.received o t size r).kernel := by
  obtain ⟨k,q,(e | e) | ⟨d,n⟩⟩ := r <;> exact finish_sits h trivial H ht rfl

theorem proceed_sits (H : Seated w) (ht : (w.kernel.thread t).stat = .ready) :
    Yields (fun w' => Sits t (w'.place t).list w'.kernel) (w.proceed t) := by
  have hself : ∀ l : ListId ο, Acts w.kernel l t w.kernel false := fun l => .keeps (keeps_refl _ t)
  unfold proceed
  cases w.place t with
  | idle => exact yields_none
  | taking o | locking o | watching o =>
      exact yields_some (finish_sits (hself (.suspend o)) trivial H ht rfl)
  | posting o =>
      dsimp only
      cases w.object o with
      | mailbox m =>
          refine Yields.map (Yields.ite (fun _ => yields_some (hself (.sender o))) fun _ r hr => ?_)
            fun r hr => posted_sits hr H ht
          exact MailBox.sends_acts (MailBox.sendLoop_sends ht hr)
      | _ => exact yields_none
  | fetching o =>
      dsimp only
      cases w.object o with
      | mailbox m =>
          refine Yields.map (Yields.ite (fun _ => yields_some (hself (.suspend o))) fun _ r hr => ?_)
            fun r hr => fetched_sits hr H ht
          exact MailBox.receives_acts (MailBox.recvLoop_receives ht hr)
      | _ => exact yields_none
  | receiving o =>
      dsimp only
      cases w.object o with
      | queue q =>
          refine Yields.map (Yields.ite (fun _ => yields_some (hself (.suspend o))) fun _ => ?_)
            fun r hr => received_sits hr H ht
          exact (MessageQueue.recvLoop_receives ht).imp fun _ => MessageQueue.receives_acts
      | _ => exact yields_none
  | sending o =>
      dsimp only
      cases w.object o with
      | queue q =>
          refine MessageQueue.notify_wakes.map fun r hr => ?_
          have hacts : Acts w.kernel (.suspend o) t r.1 false := by
            rcases hr with ⟨-,hk⟩ | ⟨u,us,hq,hk⟩
            · rw [hk]
              exact hself _
            · exact .wakes (m := .suspend o) trivial hq hk
          exact finish_sits hacts trivial H ht rfl
      | _ => exact yields_none
  | copying o =>
      dsimp only
      cases w.object o with
      | queue q => exact yields_some (finish_sits (hself (.suspend o)) trivial H ht rfl)
      | _ => exact yields_none

/-- The thread that makes the call. -/
theorem actor_sits (fuel : ℕ) {c : Call ο θ} (hc : w.Calm c) (H : Seated w)
    (ht : actor c = some t) :
    Yields (fun w' => Sits t (w'.place t).list w'.kernel) (step fuel w c) := by
  cases c with
  | ipc c =>
      unfold step ipc
      cases c with
      | proceed u =>
          obtain rfl := Option.some.inj ht
          exact proceed_sits H hc.2
      | take u o' =>
          obtain rfl := Option.some.inj ht
          dsimp only
          cases w.object o' with
          | semaphore =>
              refine (Semaphore.take_acts hc.2.2).map fun r hr => ?_
              exact finish_sits hr trivial H hc.2.2 (by cases r.2.2 <;> rfl)
          | mutex =>
              refine (Mutex.take_acts hc.2.2).map fun r hr => ?_
              exact finish_sits hr trivial H hc.2.2 (by cases r.2.2 <;> rfl)
          | _ => exact yields_none
      | recvEvent u o' =>
          obtain rfl := Option.some.inj ht
          dsimp only
          cases w.object o' with
          | event =>
              refine (Event.recv_acts hc.2.2).map fun r hr => ?_
              exact finish_sits hr trivial H hc.2.2 (by cases r.2.2 <;> rfl)
          | _ => exact yields_none
      | sendWait u o' =>
          obtain rfl := Option.some.inj ht
          dsimp only
          cases w.object o' with
          | mailbox =>
              refine Yields.map (fun r hr => ?_) fun r hr => posted_sits hr H hc.2.2
              exact MailBox.sends_acts (MailBox.sendWait_sends hc.2.2 hr)
          | _ => exact yields_none
      | recvMail u o' =>
          obtain rfl := Option.some.inj ht
          dsimp only
          cases w.object o' with
          | mailbox =>
              refine Yields.map (fun r hr => ?_) fun r hr => fetched_sits hr H hc.2.2
              exact MailBox.receives_acts (MailBox.recv_receives hc.2.2 hr)
          | _ => exact yields_none
      | sendMessage u o' =>
          obtain rfl := Option.some.inj ht
          dsimp only
          cases w.object o' with
          | queue =>
              refine yields_map fun r _ => ?_
              obtain ⟨q,e | msg⟩ := r
              · exact H u
              · exact finish_sits (.keeps (keeps_refl w.kernel u)) (l := .suspend o') trivial H hc.2.2 rfl
          | _ => exact yields_none
      | recvMessage u o' =>
          obtain rfl := Option.some.inj ht
          dsimp only
          cases w.object o' with
          | queue =>
              refine (MessageQueue.recv_receives hc.2.2).map fun r hr => ?_
              exact received_sits (MessageQueue.receives_acts hr) H hc.2.2
          | _ => exact yields_none
      | release | sendEvent | expire | tick => cases ht
  | _ => cases ht

theorem step_seated (fuel : ℕ) {c : Call ο θ} (hc : w.Undisturbed c) (H : Seated w) :
    Yields Seated (step fuel w c) := by
  intro w' hw' t
  by_cases ht : actor c = some t
  · exact actor_sits fuel hc.1 H ht w' hw'
  · rw [(step_touches fuel c w' hw').place ht]
    exact step_keeps sits_system fuel (hc.admits ht) (fun _ _ => ⟨trivial,trivial⟩) (H t) w' hw'

end System

end CosKernel
