import CosKernel.KernelMorphisms

/-!
# Linked nodes without stale links

The strict lists are the linked nodes of coslib, except that a `push_back` into an empty list
faults if the node brings an old `_pNext` with it. Whether an operation of the kernel can be done
on them is a question about the state before it.

As long as ready threads are in the list of their priority, this is the only fault that the
checked lists add for a mutex: they fault where the strict lists do, and their nodes are the same.
-/
namespace CosKernel
open IntrusiveList PartialMorphisms

structure StrictLists (ι ν : Type) where
  store : Store ι ν ν

namespace StrictLists

variable {ι ν : Type} [DecidableEq ι] [DecidableEq ν]

def pushBack (s : StrictLists ι ν) (l : ι) (p : ν) : Option (StrictLists ι ν) :=
  if s.store.empty l = true ∧ (s.store.node p).pNext ≠ none then none
  else (s.store.pushBack l p).map mk

instance : ListFamily (StrictLists ι ν) ι ν where
  pushBack := pushBack
  erase s l p := (s.store.erase l p).map mk
  empty s l := s.store.empty l
  front s l := s.store.front l
  begin s l := s.store.begin l
  next s _ a := s.store.getNext a
  size fuel s l := s.store.size fuel l

end StrictLists

namespace CheckedLists

variable {ι ν : Type} [DecidableEq ι] [DecidableEq ν] {c : CheckedLists ι ν} {l : ι} {p : ν}

/-- Without the sequences. -/
def strict (c : CheckedLists ι ν) : StrictLists ι ν := ⟨c.store⟩

theorem empty_strict (c : CheckedLists ι ν) (l : ι) :
    ListFamily.empty c.strict l = ListFamily.empty c l := toStore.empty c l

theorem front_strict (c : CheckedLists ι ν) (l : ι) :
    ListFamily.front c.strict l = ListFamily.front c l := c.front_eq l

theorem pushBack_lifts (hp : c.home p = none) :
    Lifts strict (fun c' => c'.home = Function.update c.home p (some l))
      (ListFamily.pushBack c l p) (ListFamily.pushBack c.strict l p) := by
  have hempty : c.store.empty l = true ↔ c.lists.get l = [] := by
    rw [show c.store.empty l = (c.lists.get l).isEmpty from toStore.empty c l,List.isEmpty_iff]
  change Lifts strict _ (c.pushBack l p) (c.strict.pushBack l p)
  unfold pushBack StrictLists.pushBack
  by_cases hc : c.lists.get l = [] → (c.store.node p).pNext = none
  · rw [dif_pos ⟨hp,hc⟩,if_neg fun h => h.2 (hc (hempty.mp h.1))]
    exact lifts_pmap fun _ _ => ⟨rfl,rfl⟩
  · obtain ⟨hnil,hlink⟩ := Classical.not_imp.mp hc
    rw [dif_neg fun h => hc h.2,if_pos ⟨hempty.mpr hnil,hlink⟩]
    exact lifts_none

theorem erase_lifts (hp : c.home p = some l) :
    Lifts strict (fun c' => c'.home = Function.update c.home p none)
      (ListFamily.erase c l p) (ListFamily.erase c.strict l p) := by
  change Lifts strict _ (c.erase l p) ((c.store.erase l p).map StrictLists.mk)
  unfold erase
  rw [dif_pos hp]
  exact lifts_pmap fun _ _ => ⟨rfl,rfl⟩

end CheckedLists

section

variable {ο θ : Type} [DecidableEq ο] [DecidableEq θ]

abbrev CheckedKernel (ο θ : Type) := Kernel (CheckedLists (ListId ο) θ) θ

variable {k : CheckedKernel ο θ} {o : ο} {t u : θ}

namespace Kernel
open CheckedLists

/-- Every ready thread is in the list of its priority. -/
def Sited (k : CheckedKernel ο θ) : Prop :=
  ∀ t, (k.thread t).stat = .ready → k.lists.home t = some (.ready (k.thread t).currentPriority)

omit [DecidableEq ο] in
/-- At most one thread has moved. -/
theorem Sited.moved {k' : CheckedKernel ο θ} {l : Option (ListId ο)} {x : Thread} (H : Sited k)
    (hhome : k'.lists.home = Function.update k.lists.home t l)
    (hthread : k'.thread = Function.update k.thread t x)
    (hx : x.stat = .ready → l = some (.ready x.currentPriority)) : Sited k' := by
  intro v hv
  rw [hhome,hthread] at *
  by_cases hvt : v = t
  · subst hvt
    simp only [Function.update_self] at hv ⊢
    exact hx hv
  · simp only [Function.update_of_ne hvt] at hv ⊢
    exact H v hv

omit [DecidableEq ο] in
theorem Sited.modify {g : Thread → Thread} (H : Sited k) (hs : ∀ x, (g x).stat = x.stat)
    (hp : ∀ x, (g x).currentPriority = x.currentPriority) : Sited (k.modify t g) := by
  refine H.moved (t := t) (Function.update_eq_self ..).symm rfl fun h => ?_
  rw [hp]
  exact H t ((hs _).symm.trans h)

omit [DecidableEq ο] in
theorem Sited.setError (H : Sited k) (t : θ) (e : ℤ) : Sited (k.setError t e) :=
  H.modify (fun _ => rfl) fun _ => rfl

theorem empty_map_strict (k : CheckedKernel ο θ) (l : ListId ο) :
    ListFamily.empty (k.map strict).lists l = true ↔ ListFamily.empty k.lists l = true := by
  rw [show ListFamily.empty (k.map strict).lists l = ListFamily.empty k.lists l from
    empty_strict k.lists l]

theorem removeThread_lifts (ht : k.lists.home t = some (.ready (k.thread t).currentPriority)) :
    Lifts (map strict)
      (fun k' => k'.lists.home = Function.update k.lists.home t none ∧ k'.thread = k.thread)
      (k.removeThread t) ((k.map strict).removeThread t) := by
  refine (erase_lifts ht).bind fun s hs => Lifts.ite (by exact empty_map_strict {k with lists := s} _)
    (fun _ => ?_) fun _ => ?_
  all_goals
    refine lifts_self.bind fun tree _ => ?_
    exact lifts_some (f := map strict) (a := {k with lists := s, priorityTree := tree}) ⟨hs,rfl⟩

theorem insertThread_lifts (ht : k.lists.home t = none) :
    Lifts (map strict) (fun k' =>
        k'.lists.home = Function.update k.lists.home t (some (.ready (k.thread t).currentPriority)) ∧
        k'.thread = Function.update k.thread t {k.thread t with stat := .ready})
      (k.insertThread t) ((k.map strict).insertThread t) := by
  have hp : ((k.modify t fun x => {x with stat := .ready}).thread t).currentPriority =
      (k.thread t).currentPriority := by simp
  refine Lifts.ite (by exact empty_map_strict k _) (fun _ => ?_) fun _ => ?_
  all_goals
    refine lifts_self.bind fun tree _ => ?_
    refine (pushBack_lifts ht).bind fun s hs => lifts_some (f := map strict)
      (a := {k.modify t _ with lists := s, priorityTree := tree}) ⟨?_,rfl⟩
    rw [← hp]
    exact hs

theorem process_lifts (H : Sited k) : Lifts (map strict) Sited k.process (k.map strict).process := by
  have hnext : (k.map strict).nextThread = k.nextThread := by
    unfold nextThread firstReady
    simp only [map,front_strict]
  refine Lifts.ite Iff.rfl (fun _ => ?_) fun _ => lifts_some H
  rw [hnext]
  refine lifts_self.bind fun c _ => Lifts.ite Iff.rfl (fun _ => lifts_some H) fun _ => ?_
  rw [map_currentThread]
  cases c with
  | none => exact lifts_none
  | some c =>
      cases k.currentThread with
      | none => exact lifts_none
      | some d => exact lifts_some (f := map strict) (a := {k with currentThread := some c}) H

omit [DecidableEq ο] in
theorem startTimer_lifts (H : Sited k) (time : BitVec 32) :
    Lifts (map strict) Sited (k.startTimer t time) ((k.map strict).startTimer t time) := by
  refine Lifts.ite Iff.rfl (fun _ => ?_) fun _ => lifts_some H
  exact Lifts.ite Iff.rfl (fun _ => lifts_some (H.modify (fun _ => rfl) fun _ => rfl)) fun _ =>
    lifts_none

/-- A ready thread moves from the list of its priority to a suspend list. -/
theorem listSuspend_lifts (H : Sited k) (ht : (k.thread t).stat = .ready) :
    Lifts (map strict) Sited (k.listSuspend o t) ((k.map strict).listSuspend o t) := by
  have hsuspend : Lifts (mapped strict) (fun r => Sited r.1 ∧ r.1.lists.home t = none ∧
      (r.1.thread t).stat = .suspend) (k.suspend t) ((k.map strict).suspend t) := by
    refine Lifts.ite Iff.rfl (fun hn => absurd ht hn) fun _ => ?_
    refine Lifts.bind (removeThread_lifts (k := k.modify t fun x => {x with stat := .suspend}) ?_)
      fun k₁ h₁ => lifts_some (f := mapped strict) (a := (k₁.timerStop t,ERR_OK)) ⟨?_,?_,?_⟩
    · rw [modify_thread_self]
      exact H t ht
    · refine H.moved h₁.1 (x := {k.thread t with stat := .suspend, timerActive := false}) ?_ fun h => ?_
      · simp [timerStop,modify,h₁.2]
      · cases h
    · exact (congrFun h₁.1 t).trans (Function.update_self ..)
    · simp [timerStop,h₁.2]
  refine hsuspend.bind fun r hr => (pushBack_lifts hr.2.1).bind fun s hs => ?_
  refine lifts_some (f := map strict) (a := {r.1 with lists := s}) ?_
  refine hr.1.moved hs (x := r.1.thread t) (Function.update_eq_self ..).symm fun h => ?_
  cases hr.2.2.symm.trans h

/-- A thread that is in no list comes back to the list of its priority. -/
theorem resume_lifts (H : Sited k) (ht : k.lists.home t = none) :
    Lifts (mapped strict) (fun r => Sited r.1) (k.resume t) ((k.map strict).resume t) := by
  refine Lifts.ite Iff.rfl (fun _ => lifts_some (f := mapped strict) (a := (k,-ERR_ERROR)) H)
    fun _ => ?_
  refine Lifts.bind (insertThread_lifts (k := k.timerStop t) ht) fun k₁ h₁ =>
    lifts_some (f := mapped strict) (a := (k₁,ERR_OK)) ?_
  refine H.moved h₁.1 (x := {k.thread t with timerActive := false, stat := .ready}) ?_ fun _ => ?_
  · simp [h₁.2,timerStop,modify]
  · simp [timerStop]

theorem listResume_lifts (H : Sited k) :
    Lifts (mapped strict) (fun r => Sited r.1) (k.listResume o) ((k.map strict).listResume o) := by
  unfold listResume
  have hf : ListFamily.front (k.map strict).lists (ListId.suspend o) =
      ListFamily.front k.lists (ListId.suspend o) := front_strict _ _
  rw [hf]
  cases hfront : ListFamily.front k.lists (ListId.suspend o) with
  | none => exact lifts_some (f := mapped strict) (a := (k,-ERR_ERROR)) H
  | some u =>
      have hu : k.lists.home u = some (.suspend o) :=
        (k.lists.mem_iff _ _).mp (List.mem_of_head? hfront)
      refine (erase_lifts hu).bind fun s hs => ?_
      have H₁ : Sited ({k with lists := s} : CheckedKernel ο θ) := by
        refine H.moved hs (x := k.thread u) (Function.update_eq_self ..).symm fun h => ?_
        cases hu.symm.trans (H u h)
      refine Lifts.bind (resume_lifts H₁ ?_) fun r hr =>
        lifts_some (f := mapped strict) (a := (r.1,ERR_OK)) hr
      exact (congrFun hs u).trans (Function.update_self ..)

theorem changePriority_lifts (H : Sited k) (p : Priority) :
    Lifts (map strict) Sited (k.changePriority t p) ((k.map strict).changePriority t p) := by
  refine Lifts.ite Iff.rfl (fun ht => ?_) fun ht => lifts_some (f := map strict)
    (a := k.modify t fun x => {x with currentPriority := p}) ?_
  · refine (removeThread_lifts (H t ht)).bind fun k₁ h₁ => ?_
    refine Lifts.imp (insertThread_lifts (k := k₁.modify t fun x => {x with currentPriority := p})
      ((congrFun h₁.1 t).trans (Function.update_self ..))) fun k₂ h₂ => ?_
    refine H.moved (t := t) (l := some (.ready p))
      (x := {k.thread t with currentPriority := p, stat := .ready}) ?_ ?_ fun _ => rfl
    · rw [h₂.1,modify_thread_self]
      change Function.update k₁.lists.home t _ = _
      rw [h₁.1,Function.update_idem]
    · simp [h₂.2,modify,h₁.2]
  · refine H.moved (t := t) (Function.update_eq_self ..).symm rfl fun h => ?_
    exact absurd h ht

end Kernel

namespace Mutex
open Kernel CheckedLists

variable {m : Mutex θ}

theorem inherit_lifts (H : Sited k) :
    Lifts (map strict) Sited (inherit k u t) (inherit (k.map strict) u t) :=
  Lifts.ite Iff.rfl (fun _ => changePriority_lifts H _) fun _ => lifts_some H

theorem restore_lifts (H : Sited k) :
    Lifts (map strict) Sited (restore k m t) (restore (k.map strict) m t) :=
  Lifts.ite Iff.rfl (fun _ => lifts_self.bind fun p _ => changePriority_lifts H p) fun _ =>
    lifts_some H

theorem take_lifts (H : Sited k) (ht : (k.thread t).stat = .ready) (time : BitVec 32) :
    Lifts (mapped strict) (fun r => Sited r.1) (take k o m t time) (take (k.map strict) o m t time) := by
  have H₁ := H.setError t ERR_OK
  refine Lifts.ite Iff.rfl (fun _ => lifts_some (f := mapped strict) (a := (_,_)) H₁) fun _ => ?_
  refine Lifts.ite Iff.rfl (fun _ => lifts_some (f := mapped strict) (a := (_,_)) H₁) fun _ => ?_
  refine Lifts.ite Iff.rfl (fun _ => lifts_some (f := mapped strict) (a := (_,_))
    (H₁.setError t (-ERR_TIMEOUT))) fun _ => ?_
  refine lifts_self.bind fun u _ => ?_
  have hinherit : Lifts (map strict) (fun k₁ => Sited k₁ ∧ (k₁.thread t).stat = .ready)
      (inherit (k.setError t ERR_OK) u t) (inherit ((k.map strict).setError t ERR_OK) u t) := by
    refine ⟨(inherit_lifts H₁).eq,fun k₁ h₁ => ⟨(inherit_lifts H₁).yields k₁ h₁,?_⟩⟩
    rw [inherit_thread h₁]
    by_cases hut : t = u
    · subst hut
      simpa [Kernel.setError] using ht
    · simpa [Kernel.setError,hut] using ht
  exact hinherit.bind fun k₁ h₁ => (listSuspend_lifts h₁.1 h₁.2).bind fun k₂ h₂ =>
    (startTimer_lifts h₂ time).bind fun k₃ h₃ => (process_lifts h₃).bind fun k₄ h₄ =>
      lifts_some (f := mapped strict) (a := (k₄,m,none)) h₄

theorem release_lifts (H : Sited k) :
    Lifts (mapped strict) (fun r => Sited r.1) (release k o m t) (release (k.map strict) o m t) := by
  have hhandOver : ∀ m : Mutex θ, Lifts (mapped strict) (fun r => Sited r.1) (handOver k o m t)
      (handOver (k.map strict) o m t) := by
    intro m
    refine (restore_lifts H).bind fun k₁ h₁ => Lifts.ite (empty_map_strict k₁ _)
      (fun _ => lifts_some (f := mapped strict) (a := (k₁,_)) h₁) fun _ => ?_
    have hf : ListFamily.front (k₁.map strict).lists (ListId.suspend o) =
        ListFamily.front k₁.lists (ListId.suspend o) := front_strict _ _
    rw [hf]
    refine lifts_self.bind fun u _ => (listResume_lifts h₁).bind fun r hr =>
      (process_lifts hr).bind fun k₂ h₂ => lifts_some (f := mapped strict) (a := (k₂,_)) h₂
  refine Lifts.ite Iff.rfl (fun _ => lifts_some (f := mapped strict) (a := (_,_)) (H.setError t _))
    fun _ => Lifts.ite Iff.rfl (fun _ => ?_) fun _ => lifts_some (f := mapped strict) (a := (k,_)) H
  exact (hhandOver _).bind fun r hr => lifts_some (f := mapped strict) (a := (r.1,r.2,ERR_OK)) hr

end Mutex

end

end CosKernel
