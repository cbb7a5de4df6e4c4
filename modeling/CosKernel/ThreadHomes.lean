import CosKernel.WaitQueues

/-!
# The list of a thread

Every thread has at most one list in which its node is. For a ready thread it is the list
of its priority; for a suspended one it is a given list, the one in which it waits. The
operations of the kernel keep this, except for the expiry of a timer, which makes a thread
ready without taking it out of its list.
-/
namespace CosKernel

namespace Sequences

variable {ι ν : Type} [DecidableEq ι] [DecidableEq ν]

/-- Each element is in the list that `home` tells, once, and in no other. -/
structure Housed (s : Sequences ι ν) (home : ν → Option ι) : Prop where
  mem : ∀ l a, a ∈ s.get l ↔ home a = some l
  nodup : ∀ l, (s.get l).Nodup

variable {s : Sequences ι ν} {home : ν → Option ι} {l : ι} {a : ν}

theorem Housed.push (H : s.Housed home) (ha : home a = none) (l : ι) :
    (s.set l (s.get l++[a])).Housed (Function.update home a (some l)) := by
  constructor
  · intro m b
    by_cases hm : m = l
    · subst hm
      by_cases hb : b = a
      · simp [hb]
      · simp [hb,H.mem]
    · by_cases hb : b = a
      · subst hb
        simp [hm,H.mem,ha,Ne.symm hm]
      · simp [hm,hb,H.mem]
  · intro m
    by_cases hm : m = l
    · subst hm
      rw [set_get_self]
      refine (H.nodup m).append (List.nodup_singleton a) ?_
      simp [H.mem,ha]
    · rw [set_get_of_ne _ _ hm]
      exact H.nodup m

theorem Housed.erase (H : s.Housed home) (ha : home a = some l) :
    (s.set l ((s.get l).erase a)).Housed (Function.update home a none) := by
  constructor
  · intro m b
    by_cases hm : m = l
    · subst hm
      rw [set_get_self,(H.nodup m).mem_erase_iff,H.mem]
      by_cases hb : b = a
      · simp [hb]
      · simp [hb]
    · by_cases hb : b = a
      · subst hb
        simp [hm,H.mem,ha,Ne.symm hm]
      · simp [hm,hb,H.mem]
  · intro m
    by_cases hm : m = l
    · subst hm
      rw [set_get_self]
      exact (H.nodup m).erase a
    · rw [set_get_of_ne _ _ hm]
      exact H.nodup m

omit [DecidableEq ι] in
/-- The element after `a`, and it is another one. -/
theorem after_mem {xs : List ν} {b : ν} (hxs : xs.Nodup) (h : after a xs = some b) :
    b ∈ xs ∧ b ≠ a := by
  induction xs with
  | nil => cases h
  | cons x xs ih =>
      obtain ⟨hx,hxs⟩ := List.nodup_cons.mp hxs
      unfold after at h
      split_ifs at h with hxa
      · have hb := List.mem_of_head? h
        refine ⟨List.mem_cons_of_mem x hb,?_⟩
        rintro rfl
        exact hx (hxa ▸ hb)
      · obtain ⟨hb,hne⟩ := ih hxs h
        exact ⟨List.mem_cons_of_mem x hb,hne⟩

end Sequences

namespace Kernel

variable {ο θ : Type} [DecidableEq θ]

/-- The list of `t`. Suspended threads wait in `b`, and those that do not run are in `d`. -/
def home (k : IdealKernel ο θ) (b d : θ → Option (ListId ο)) (t : θ) : Option (ListId ο) :=
  match (k.thread t).stat with
  | .ready => some (.ready (k.thread t).currentPriority)
  | .suspend => b t
  | .init | .close => d t

variable {k k' k₁ k₂ : IdealKernel ο θ} {b b' d : θ → Option (ListId ο)} {l : ListId ο} {t u : θ}
variable {e : ℤ}

omit [DecidableEq θ] in
theorem home_ready (h : (k.thread t).stat = .ready) :
    home k b d t = some (.ready (k.thread t).currentPriority) := by simp [home,h]

omit [DecidableEq θ] in
theorem home_suspend (h : (k.thread t).stat = .suspend) : home k b d t = b t := by simp [home,h]

variable [DecidableEq ο]

/-- The nodes of all threads are where they should be. -/
def Homes (k : IdealKernel ο θ) (b d : θ → Option (ListId ο)) : Prop :=
  k.lists.Housed (home k b d)

omit [DecidableEq ο] [DecidableEq θ] in
theorem Homes.congr (H : Homes k b d) (hl : k'.lists = k.lists)
    (h : ∀ t, home k' b' d t = home k b d t) : Homes k' b' d := by
  unfold Homes
  rw [hl,funext h]
  exact H

omit [DecidableEq ο] [DecidableEq θ] in
/-- Neither lists nor states nor priorities have changed. -/
theorem Homes.same (H : Homes k b d) (hl : k'.lists = k.lists)
    (hs : ∀ t, (k'.thread t).stat = (k.thread t).stat)
    (hp : ∀ t, (k'.thread t).currentPriority = (k.thread t).currentPriority) : Homes k' b d := by
  refine H.congr hl fun t => ?_
  simp only [home,hs,hp]

omit [DecidableEq ο] in
theorem Homes.modify (H : Homes k b d) {g : Thread → Thread}
    (hs : ∀ x, (g x).stat = x.stat) (hp : ∀ x, (g x).currentPriority = x.currentPriority) :
    Homes (k.modify t g) b d := by
  refine H.same rfl (fun u => ?_) fun u => ?_
  · by_cases hu : u = t
    · simp [hu,hs]
    · simp [Kernel.modify,hu]
  · by_cases hu : u = t
    · simp [hu,hp]
    · simp [Kernel.modify,hu]

omit [DecidableEq ο] in
theorem Homes.setError (H : Homes k b d) (t : θ) (e : ℤ) : Homes (k.setError t e) b d :=
  H.modify (fun _ => rfl) fun _ => rfl

theorem Homes.process (H : Homes k b d) (h : k.process = some k') : Homes k' b d := by
  obtain ⟨c,rfl⟩ := process_some h
  exact H.same rfl (fun _ => rfl) fun _ => rfl

omit [DecidableEq ο] in
/-- Where a thread waits that does not sleep is of no importance. -/
theorem Homes.awake (H : Homes k b d) (ht : (k.thread t).stat ≠ .suspend) (x : Option (ListId ο)) :
    Homes k (Function.update b t x) d := by
  refine H.congr rfl fun u => ?_
  by_cases hu : u = t
  · subst hu
    cases hs : (k.thread u).stat with
    | suspend => exact absurd hs ht
    | ready | init | close => simp [home,hs]
  · simp [home,hu]

/-- A ready thread goes to sleep in `l`. -/
theorem Homes.block {s : Sequences (ListId ο) θ} {time : BitVec 32} (H : Homes k b d)
    (ht : (k.thread t).stat = .ready) (h₁ : k.suspend t = some (k₁,e))
    (h₂ : ListFamily.pushBack k₁.lists l t = some s)
    (h₃ : Kernel.startTimer {k₁ with lists := s} t time = some k₂) (h₄ : k₂.process = some k') :
    Homes k' (Function.update b t (some l)) d := by
  obtain ⟨s₁,r,hs₁,rfl⟩ := suspend_some ht h₁
  obtain ⟨x,rfl,hxs,-,-,-⟩ := startTimer_some h₃
  obtain ⟨c,rfl⟩ := process_some h₄
  obtain rfl := Option.some.inj hs₁
  obtain rfl := Option.some.inj h₂
  have hpush := (Sequences.Housed.erase H (home_ready ht)).push (Function.update_self ..) l
  unfold Homes
  convert hpush using 1
  funext u
  by_cases hu : u = t
  · subst hu
    have : x.stat = .suspend := by simpa using hxs
    simp [home,this]
  · simp [home,hu]

theorem Homes.listSuspend {o : ο} {time : BitVec 32} (H : Homes k b d)
    (ht : (k.thread t).stat = .ready) (h₁ : k.listSuspend o t = some k₁)
    (h₂ : k₁.startTimer t time = some k₂) (h₃ : k₂.process = some k') :
    Homes k' (Function.update b t (some (.suspend o))) d := by
  simp only [Kernel.listSuspend,Option.bind_eq_bind,Option.bind_eq_some_iff,Option.some.injEq] at h₁
  obtain ⟨⟨k₀,e⟩,h₁,s,hs,rfl⟩ := h₁
  exact H.block ht h₁ hs h₂ h₃

/-- A thread that sleeps in `l` is taken out of it and woken. -/
theorem Homes.wake {s : Sequences (ListId ο) θ} (H : Homes k b d)
    (hu : (k.thread u).stat = .suspend) (hb : b u = some l)
    (h₁ : ListFamily.erase k.lists l u = some s)
    (h₂ : Kernel.resume {k with lists := s} u = some (k',e)) : Homes k' b d := by
  obtain rfl := Option.some.inj h₁
  obtain ⟨s',r,hs',rfl⟩ := resume_some
    (k := {k with lists := k.lists.set l ((k.lists.get l).erase u)}) hu h₂
  obtain rfl := Option.some.inj hs'
  have hpush := (Sequences.Housed.erase H ((home_suspend hu).trans hb)).push
    (Function.update_self ..) (.ready (k.thread u).currentPriority)
  unfold Homes
  convert hpush using 1
  funext v
  by_cases hv : v = u
  · simp [home,hv]
  · simp [home,hv]

theorem Homes.changePriority {p : Priority} (H : Homes k b d)
    (h : k.changePriority t p = some k') : Homes k' b d := by
  obtain ⟨hthread,hready,hother⟩ := changePriority_some h
  by_cases ht : (k.thread t).stat = .ready
  · obtain ⟨s₁,s₂,hs₁,hs₂,hl⟩ := hready ht
    obtain rfl := Option.some.inj hs₁
    obtain rfl := Option.some.inj hs₂
    have hpush := (Sequences.Housed.erase H (home_ready ht)).push (Function.update_self ..) (.ready p)
    unfold Homes
    rw [hl]
    convert hpush using 1
    funext u
    by_cases hu : u = t
    · subst hu
      simp [home,hthread,ht]
    · simp [home,hthread,hu]
  · refine H.congr (hother ht) fun u => ?_
    by_cases hu : u = t
    · subst hu
      cases hs : (k.thread u).stat with
      | ready => exact absurd hs ht
      | suspend | init | close => simp [home,hthread,hs]
    · simp [home,hthread,hu]

/-- A sleeping thread that is in no list becomes ready. -/
theorem Homes.expire (H : Homes k b d) (hb : b t = none) (h : k.expire t = some k') :
    Homes k' b d := by
  obtain ⟨hs,s,r,c,hs',rfl⟩ := expire_some h
  obtain rfl := Option.some.inj hs'
  have hpush := Sequences.Housed.push H ((home_suspend hs).trans hb)
    (.ready (k.thread t).currentPriority)
  unfold Homes
  convert hpush using 1
  funext u
  by_cases hu : u = t
  · simp [home,hu]
  · simp [home,hu]

/-- A ready thread is put behind the others of its priority. -/
theorem Homes.rotate {s₁ s₂ : Sequences (ListId ο) θ} (H : Homes k b d)
    (ht : (k.thread t).stat = .ready)
    (h₁ : ListFamily.erase k.lists (ListId.ready (k.thread t).currentPriority) t = some s₁)
    (h₂ : ListFamily.pushBack s₁ (ListId.ready (k.thread t).currentPriority) t = some s₂) :
    Homes {k with lists := s₂} b d := by
  obtain rfl := Option.some.inj h₁
  obtain rfl := Option.some.inj h₂
  have hpush := (Sequences.Housed.erase H (home_ready ht)).push (Function.update_self ..)
    (.ready (k.thread t).currentPriority)
  unfold Homes
  convert hpush using 1
  funext u
  by_cases hu : u = t
  · subst hu
    simp [home,ht]
  · simp [home,hu]

theorem Homes.inclock (H : Homes k b d) (h : k.inclock = some k') : Homes k' b d := by
  unfold Kernel.inclock at h
  split at h
  · cases h
    exact H
  · next t ht =>
      dsimp only at h
      have H₁ : Homes (k.modify t fun x => {x with remainingTick := x.remainingTick-1}) b d :=
        H.modify (fun _ => rfl) fun _ => rfl
      split_ifs at h with hrest hready
      · cases h
        exact H₁
      · cases h
        exact H₁.modify (fun _ => rfl) fun _ => rfl
      · simp only [Option.bind_eq_bind,Option.bind_eq_some_iff] at h
        obtain ⟨s₁,hs₁,s₂,hs₂,h⟩ := h
        have H₂ := H₁.modify (t := t) (g := fun x => {x with remainingTick := x.initTick})
          (fun _ => rfl) fun _ => rfl
        exact (H₂.rotate (not_not.mp hready) hs₁ hs₂).process h

omit [DecidableEq ο] [DecidableEq θ] in
/-- In a wait list are the threads that sleep in it. -/
theorem Homes.mem_wait (H : Homes k b d) (hd : ∀ t l, d t = some l → ¬l.IsWait) (hl : l.IsWait) :
    t ∈ k.lists.get l ↔ (k.thread t).stat = .suspend ∧ b t = some l := by
  rw [H.mem l t]
  cases hs : (k.thread t).stat with
  | suspend => simp [home,hs]
  | ready =>
      simp only [home,hs,Option.some.injEq,reduceCtorEq,false_and,iff_false]
      rintro rfl
      exact hl
  | init | close =>
      simp only [home,hs,reduceCtorEq,false_and,iff_false]
      exact fun h => hd t l h hl

/-- Nobody falls asleep, and the threads in `b` stay there. -/
theorem Homes.listResume {o : ο} (H : Homes k b d) (hd : ∀ t l, d t = some l → ¬l.IsWait)
    (h : k.listResume o = some (k',e)) : Homes k' b d := by
  cases hf : ListFamily.front k.lists (ListId.suspend o) with
  | none =>
      obtain ⟨rfl,-⟩ := listResume_none hf h
      exact H
  | some u =>
      obtain ⟨-,s,hs,e',hr⟩ := listResume_some hf h
      have hu : u ∈ k.lists.get (.suspend o) := List.mem_of_head? hf
      obtain ⟨hstat,hb⟩ := (H.mem_wait (l := .suspend o) hd trivial).mp hu
      exact H.wake hstat hb hs hr

end Kernel

/-- Where the threads wait after an operation of `t`, which may have gone to sleep in `l`. -/
def sleeps {ο θ : Type} [DecidableEq θ] (b : θ → Option (ListId ο)) (t : θ) (l : ListId ο)
    (blocked : Bool) : θ → Option (ListId ο) :=
  if blocked then Function.update b t (some l) else b

def Progress.isWaiting {α : Type} : Progress α → Bool
  | .returned _ => false
  | .waiting _ _ => true

section operations
open Kernel

variable {ο θ : Type} [DecidableEq ο] [DecidableEq θ]
variable {k k' : IdealKernel ο θ} {b d : θ → Option (ListId ο)} {o : ο} {t : θ}
variable {tick timeout tickDelta : BitVec 32}

theorem Semaphore.take_homes {value v : BitVec 16} {r : Option ℤ} (H : Homes k b d)
    (ht : (k.thread t).stat = .ready) (h : take k o value t timeout = some (k',v,r)) :
    Homes k' (sleeps b t (.suspend o) r.isNone) d := by
  unfold take at h
  split_ifs at h
  · cases h
    exact H
  · cases h
    exact H
  · simp only [Option.bind_eq_bind,Option.bind_eq_some_iff,Option.some.injEq,Prod.mk.injEq] at h
    obtain ⟨k₁,h₁,k₂,h₂,k₃,h₃,rfl,rfl,rfl⟩ := h
    exact (H.setError t ERR_OK).listSuspend (by simpa [setError] using ht) h₁ h₂ h₃

theorem Mutex.inherit_homes {u : θ} (H : Homes k b d) (h : inherit k u t = some k') :
    Homes k' b d := by
  unfold inherit at h
  split_ifs at h
  · exact H.changePriority h
  · cases h
    exact H

theorem Mutex.restore_homes {m : Mutex θ} (H : Homes k b d) (h : restore k m t = some k') :
    Homes k' b d := by
  unfold restore at h
  split_ifs at h
  · obtain ⟨p,-,h⟩ := Option.bind_eq_some_iff.mp h
    exact H.changePriority h
  · cases h
    exact H

theorem Mutex.take_homes {m m' : Mutex θ} {r : Option ℤ} (H : Homes k b d)
    (ht : (k.thread t).stat = .ready) (h : take k o m t timeout = some (k',m',r)) :
    Homes k' (sleeps b t (.suspend o) r.isNone) d := by
  unfold take at h
  dsimp only at h
  split_ifs at h
  · cases h
    exact H.setError t _
  · cases h
    exact H.setError t _
  · cases h
    exact (H.setError t _).setError t _
  · simp only [Option.bind_eq_bind,Option.bind_eq_some_iff,Option.some.injEq,Prod.mk.injEq] at h
    obtain ⟨u,-,k₁,h₁,k₂,h₂,k₃,h₃,k₄,h₄,rfl,rfl,rfl⟩ := h
    have hstat : (k₁.thread t).stat = .ready := by
      rw [(inherit_some h₁).1]
      by_cases hu : t = u
      · subst hu
        simpa [setError] using ht
      · simpa [setError,hu] using ht
    exact (inherit_homes (H.setError t ERR_OK) h₁).listSuspend hstat h₂ h₃ h₄

theorem Event.recv_homes {set_ set' set : BitVec 32} {option : BitVec 8}
    {r : Option (ℤ × Option (BitVec 32))} (H : Homes k b d) (ht : (k.thread t).stat = .ready)
    (h : recv k o set_ t set option timeout = some (k',set',r)) :
    Homes k' (sleeps b t (.suspend o) r.isNone) d := by
  unfold recv at h
  dsimp only at h
  split_ifs at h
  · cases h
    exact H
  · cases h
    exact H.setError t _
  · cases h
    exact H.setError t _
  · cases h
    exact (H.setError t _).setError t _
  · simp only [Option.bind_eq_bind,Option.bind_eq_some_iff,Option.some.injEq,Prod.mk.injEq] at h
    obtain ⟨k₁,h₁,k₂,h₂,k₃,h₃,rfl,rfl,rfl⟩ := h
    refine Homes.listSuspend ?_ ?_ h₁ h₂ h₃
    · exact (H.setError t _).modify (fun _ => rfl) fun _ => rfl
    · simpa [setError] using ht

theorem MailBox.sendLoop_homes {m m' : MailBox} {value : BitVec 32} {r : Progress ℤ}
    (H : Homes k b d) (hd : ∀ t l, d t = some l → ¬l.IsWait) (ht : (k.thread t).stat = .ready)
    (h : sendLoop k o m tick t value timeout tickDelta = some (k',m',r)) :
    Homes k' (sleeps b t (.sender o) r.isWaiting) d := by
  unfold sendLoop at h
  split_ifs at h
  · cases h
    exact H.setError t _
  · simp only [Option.bind_eq_bind,Option.bind_eq_some_iff,Option.some.injEq,Prod.mk.injEq] at h
    obtain ⟨⟨k₁,e⟩,h₁,s,hs,k₂,h₂,k₃,h₃,rfl,rfl,rfl⟩ := h
    exact (H.setError t ERR_OK).block (by simpa [setError] using ht) h₁ hs h₂ h₃
  · simp only [Option.bind_eq_bind] at h
    obtain ⟨⟨k₁,e⟩,h₁,h₂⟩ := Option.bind_eq_some_iff.mp h
    have H₁ := H.listResume hd h₁
    split_ifs at h₂
    · simp only [Option.bind_eq_some_iff,Option.some.injEq,Prod.mk.injEq] at h₂
      obtain ⟨k₂,h₃,rfl,rfl,rfl⟩ := h₂
      exact H₁.process h₃
    · cases h₂
      exact H₁

theorem MailBox.recvLoop_homes {m m' : MailBox} {r : Progress (ℤ × Option (BitVec 32))}
    (H : Homes k b d) (hd : ∀ t l, d t = some l → ¬l.IsWait) (ht : (k.thread t).stat = .ready)
    (h : recvLoop k o m tick t timeout tickDelta = some (k',m',r)) :
    Homes k' (sleeps b t (.suspend o) r.isWaiting) d := by
  unfold recvLoop at h
  split_ifs at h
  · cases h
    exact (H.setError t _).setError t _
  · simp only [Option.bind_eq_bind,Option.bind_eq_some_iff,Option.some.injEq,Prod.mk.injEq] at h
    obtain ⟨k₁,h₁,k₂,h₂,k₃,h₃,rfl,rfl,rfl⟩ := h
    exact (H.setError t ERR_OK).listSuspend (by simpa [setError] using ht) h₁ h₂ h₃
  · cases h
    exact H
  · simp only [Option.bind_eq_bind,Option.bind_eq_some_iff,Option.some.injEq,Prod.mk.injEq] at h
    obtain ⟨u,hu,s,hs,⟨k₁,e⟩,h₁,k₂,h₂,rfl,rfl,rfl⟩ := h
    obtain ⟨hstat,hb⟩ := (H.mem_wait (l := .sender o) hd trivial).mp (List.mem_of_head? hu)
    exact (H.wake hstat hb hs h₁).process h₂

theorem MessageQueue.recvLoop_homes {q q' : MessageQueue} {r : Progress (ℤ ⊕ ℕ)}
    (H : Homes k b d) (ht : (k.thread t).stat = .ready)
    (h : recvLoop k o q tick t timeout tickDelta = some (k',q',r)) :
    Homes k' (sleeps b t (.suspend o) r.isWaiting) d := by
  unfold recvLoop at h
  split_ifs at h
  · cases h
    exact (H.setError t _).setError t _
  · simp only [Option.bind_eq_bind,Option.bind_eq_some_iff,Option.some.injEq,Prod.mk.injEq] at h
    obtain ⟨k₁,h₁,k₂,h₂,k₃,h₃,rfl,rfl,rfl⟩ := h
    exact (H.setError t ERR_OK).listSuspend (by simpa [setError] using ht) h₁ h₂ h₃
  · obtain ⟨msg,-,h⟩ := Option.bind_eq_some_iff.mp h
    cases h
    exact H

variable (hd : ∀ t l, d t = some l → ¬l.IsWait)

include hd

theorem Semaphore.release_homes {value v : BitVec 16} {e : ℤ} (H : Homes k b d)
    (h : release k o value = some (k',v,e)) : Homes k' b d := by
  simp only [release,Option.bind_eq_bind] at h
  obtain ⟨⟨k₁,e₁⟩,h₁,h₂⟩ := Option.bind_eq_some_iff.mp h
  have H₁ := H.listResume hd h₁
  split_ifs at h₂
  · simp only [Option.bind_eq_some_iff,Option.some.injEq,Prod.mk.injEq] at h₂
    obtain ⟨k₂,h₃,rfl,rfl,-⟩ := h₂
    exact H₁.process h₃
  · cases h₂
    exact H₁

theorem Mutex.release_homes {m m' : Mutex θ} {e : ℤ} (H : Homes k b d)
    (h : release k o m t = some (k',m',e)) : Homes k' b d := by
  unfold release at h
  dsimp only at h
  split_ifs at h
  · cases h
    exact H.setError t _
  · simp only [handOver,Option.bind_eq_bind,Option.bind_eq_some_iff,Option.some.injEq,
      Prod.mk.injEq] at h
    obtain ⟨⟨k₂,m₂⟩,⟨k₁,h₁,h⟩,rfl,rfl,rfl⟩ := h
    have H₁ := restore_homes H h₁
    split_ifs at h
    · cases h
      exact H₁
    · simp only [Option.bind_eq_some_iff,Option.some.injEq,Prod.mk.injEq] at h
      obtain ⟨u,-,⟨k₃,e⟩,h₂,k₄,h₃,rfl,-⟩ := h
      exact (H₁.listResume hd h₂).process h₃
  · cases h
    exact H

theorem MessageQueue.notify_homes {e : ℤ} (H : Homes k b d)
    (h : notify k o = some (k',e)) : Homes k' b d := by
  unfold notify at h
  split_ifs at h
  · cases h
    exact H
  · simp only [Option.bind_eq_bind,Option.bind_eq_some_iff,Option.some.injEq,Prod.mk.injEq] at h
    obtain ⟨⟨k₁,e₁⟩,h₁,k₂,h₂,rfl,-⟩ := h
    exact (H.listResume hd h₁).process h₂

/-- A thread of the list whose events have arrived is taken out and woken. -/
theorem Event.resumed_homes {g : Thread → Thread} {c : Prop} [Decidable c]
    {s : Sequences (ListId ο) θ} {e : ℤ} (H : Homes k b d) (ht : t ∈ k.lists.get (.suspend o))
    (hs : ListFamily.erase (if c then k.modify t g else k).lists (ListId.suspend o) t = some s)
    (hg : ∀ x, (g x).stat = x.stat ∧ (g x).currentPriority = x.currentPriority)
    (h : Kernel.resume {(if c then k.modify t g else k) with lists := s} t = some (k',e)) :
    Homes k' b d ∧ k'.lists.get (.suspend o) = (k.lists.get (.suspend o)).erase t := by
  obtain ⟨hstat,hb⟩ := (H.mem_wait (l := .suspend o) hd trivial).mp ht
  have hwake : ∀ k₁ : IdealKernel ο θ, Homes k₁ b d → k₁.lists = k.lists →
      (k₁.thread t).stat = .suspend → ListFamily.erase k₁.lists (ListId.suspend o) t = some s →
      Kernel.resume {k₁ with lists := s} t = some (k',e) →
      Homes k' b d ∧ k'.lists.get (.suspend o) = (k.lists.get (.suspend o)).erase t := by
    intro k₁ H₁ hl hs₁ hs h
    refine ⟨H₁.wake hs₁ hb hs h,?_⟩
    rw [(wakes_of_resume (l := .suspend o) trivial hs h).own,hl]
  split_ifs at hs h
  · exact hwake _ (H.modify (fun x => (hg x).1) fun x => (hg x).2) rfl
      (by simpa [(hg _).1] using hstat) hs h
  · exact hwake _ H rfl hstat hs h

/-- The cursor of the loop is a thread of the list, also after the thread before it has been
taken out. -/
theorem Event.sendLoop_homes {fuel : ℕ} {set_ set' : BitVec 32} {cursor : Option θ}
    {need need' : Bool} (H : Homes k b d) (hcursor : ∀ t ∈ cursor, t ∈ k.lists.get (.suspend o))
    (h : sendLoop o fuel k set_ cursor need = some (k',set',need')) : Homes k' b d := by
  induction fuel generalizing k set_ cursor need with
  | zero =>
      cases cursor with
      | none =>
          cases h
          exact H
      | some t => cases h
  | succ fuel ih =>
      cases cursor with
      | none =>
          cases h
          exact H
      | some t =>
          have ht : t ∈ k.lists.get (.suspend o) := hcursor t rfl
          have hnext : ∀ u ∈ ListFamily.next k.lists (ListId.suspend o) t,
              u ∈ k.lists.get (.suspend o) ∧ u ≠ t := fun u hu =>
            Sequences.after_mem (H.nodup _) hu
          unfold sendLoop at h
          dsimp only at h
          split at h
          · obtain ⟨s,hs,h⟩ := Option.bind_eq_some_iff.mp h
            obtain ⟨⟨k₁,e⟩,h₁,h⟩ := Option.bind_eq_some_iff.mp h
            obtain ⟨H₁,hlists⟩ := resumed_homes hd H ht hs (fun _ => ⟨rfl,rfl⟩) h₁
            refine ih H₁ (fun u hu => ?_) h
            obtain ⟨hmem,hne⟩ := hnext u hu
            rw [hlists]
            exact (List.mem_erase_of_ne hne).mpr hmem
          · exact ih H (fun u hu => (hnext u hu).1) h

theorem Event.send_homes {fuel : ℕ} {set_ set' set : BitVec 32} {e : ℤ} (H : Homes k b d)
    (h : send fuel k o set_ set = some (k',set',e)) : Homes k' b d := by
  unfold send at h
  split_ifs at h
  · cases h
    exact H
  · simp only [Option.bind_eq_bind] at h
    obtain ⟨⟨k₁,set₁,need⟩,h₁,h₂⟩ := Option.bind_eq_some_iff.mp h
    have H₁ := sendLoop_homes hd H (fun t ht => List.mem_of_head? ht) h₁
    split_ifs at h₂
    · obtain ⟨k₂,h₃,h₂⟩ := Option.bind_eq_some_iff.mp h₂
      cases h₂
      exact H₁.process h₃
    · cases h₂
      exact H₁

end operations

end CosKernel
