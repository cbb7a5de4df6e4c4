import CosKernel.ArmedTimers

/-!
# Nobody waits for what is there

A thread waits on a semaphore only while its value is zero, and on a mutex only while it has an
owner. This holds in every state of every run of the whole kernel, with timeouts, resets and any
other calls in between: a call changes the waiting threads of its own object only, and `release`
raises the value when nobody waits.

Of the lists only this is needed: that an operation on one list does not make another one empty, or
end that. Linked nodes have it, whatever their links are.
-/
namespace CosKernel
open PartialMorphisms TransitionRuns Kernel Ipc

namespace System

variable {ο θ : Type}

section frame

inductive Kind where
  | semaphore
  | mutex
  | event
  | mailbox
  | queue
  deriving DecidableEq, Repr

def kind : Object θ → Kind
  | .semaphore _ => .semaphore
  | .mutex _ => .mutex
  | .event _ => .event
  | .mailbox _ => .mailbox
  | .queue _ => .queue

/-- The kind of object on which a thread is in a call. -/
def placeKind : Place ο → Option Kind
  | .taking _ => some .semaphore
  | .locking _ => some .mutex
  | .watching _ => some .event
  | .posting _ _ _ _ | .fetching _ _ _ => some .mailbox
  | .receiving _ _ _ _ | .sending _ _ _ _ | .copying _ _ _ => some .queue
  | .idle => none

/-- The place of a thread that is in no call, or in one on the object `x` at `o`. -/
def Fits (p : Place ο) (o : ο) (x : Object θ) : Prop :=
  p = .idle ∨ placeTarget p = some o ∧ placeKind p = some (kind x)

theorem Fits.ite {p : Place ο} {o : ο} {x : Object θ} {c : Prop} [Decidable c] (h : Fits p o x) :
    Fits (if c then p else .idle) o x := by
  split_ifs
  · exact h
  · exact .inl rfl

/-- The thread that makes a call. -/
def actor : Call ο θ → Option θ
  | .ipc (.take t _ _) | .ipc (.recvEvent t _ _ _ _) | .ipc (.sendWait t _ _ _)
  | .ipc (.recvMail t _ _) | .ipc (.sendMessage t _ _ _) | .ipc (.recvMessage t _ _ _)
  | .ipc (.proceed t) => some t
  | _ => none

variable {σ : Type} [DecidableEq ο] [DecidableEq θ] {w w' : System σ ο θ} {o : ο} {t : θ}

/-- What a call on an object by a thread may change, beside the kernel. -/
inductive Touches (w : System σ ο θ) : Option ο → Option θ → System σ ο θ → Prop where
  | finish {o : ο} {t : θ} {k : Kernel σ θ} {x : Object θ} {p : Place ο}
      (hx : kind (w.object o) = kind x) (hp : Fits p o x) :
      Touches w (some o) (some t) (w.finish o t k x p)
  | change {o : ο} {t : Option θ} {k : Kernel σ θ} {x : Object θ}
      (hx : kind (w.object o) = kind x) : Touches w (some o) t (w.change o k x)
  | within {o : Option ο} {t : Option θ} {k : Kernel σ θ} {n : BitVec 32} :
      Touches w o t {w with kernel := k, tick := n}

theorem Touches.object {o' : Option ο} {t' : Option θ} (H : Touches w o' t' w')
    (h : o' ≠ some o) : w'.object o = w.object o := by
  cases H with
  | finish | change => exact Function.update_of_ne (fun ho => h (congrArg some ho.symm)) _ _
  | within => rfl

theorem Touches.place {o' : Option ο} {t' : Option θ} (H : Touches w o' t' w')
    (h : t' ≠ some t) : w'.place t = w.place t := by
  cases H with
  | finish => exact Function.update_of_ne (fun ht => h (congrArg some ht.symm)) _ _
  | change | within => rfl

theorem Touches.same_kind {o' : Option ο} {t' : Option θ} (H : Touches w o' t' w') (o : ο) :
    kind (w'.object o) = kind (w.object o) := by
  by_cases ho : o' = some o
  · subst ho
    cases H with
    | finish hx _ | change hx => simpa [System.finish,System.change] using hx.symm
    | within => rfl
  · rw [H.object ho]

/-- The threads are in calls that fit their objects. -/
def Typed (w : System σ ο θ) : Prop :=
  ∀ t o, placeTarget (w.place t) = some o → placeKind (w.place t) = some (kind (w.object o))

theorem Touches.typed {o' : Option ο} {t' : Option θ} (H : Touches w o' t' w') (T : Typed w) :
    Typed w' := by
  intro t o ho
  rw [H.same_kind o]
  cases H with
  | @finish o' t' k x p hx hp =>
      by_cases ht : t = t'
      · subst ht
        simp only [System.finish,Function.update_self] at ho ⊢
        rcases hp with rfl | ⟨ho',hk⟩
        · cases ho
        · obtain rfl := Option.some.inj (ho.symm.trans ho')
          rw [hk,hx]
      · simp only [System.finish,Function.update_of_ne ht] at ho ⊢
        exact T t o ho
  | change | within => exact T t o ho

theorem touches_posted {value : BitVec 32} (hx : kind (w.object o) = .mailbox)
    (r : Kernel σ θ × MailBox × Progress ℤ) :
    Touches w (some o) (some t) (w.posted o t value r) := by
  obtain ⟨k,m,e | ⟨d,n⟩⟩ := r
  · exact .finish hx (.inl rfl)
  · exact .finish hx (.inr ⟨rfl,rfl⟩)

theorem touches_fetched (hx : kind (w.object o) = .mailbox)
    (r : Kernel σ θ × MailBox × Progress (ℤ × Option (BitVec 32))) :
    Touches w (some o) (some t) (w.fetched o t r) := by
  obtain ⟨k,m,e | ⟨d,n⟩⟩ := r
  · exact .finish hx (.inl rfl)
  · exact .finish hx (.inr ⟨rfl,rfl⟩)

theorem touches_received {size : ℕ} (hx : kind (w.object o) = .queue)
    (r : Kernel σ θ × MessageQueue × Progress (ℤ ⊕ ℕ)) :
    Touches w (some o) (some t) (w.received o t size r) := by
  obtain ⟨k,q,(e | e) | ⟨d,n⟩⟩ := r
  · exact .finish hx (.inl rfl)
  · exact .finish hx (.inr ⟨rfl,rfl⟩)
  · exact .finish hx (.inr ⟨rfl,rfl⟩)

variable [ListFamily σ (ListId ο) θ]

theorem proceed_touches (t : θ) :
    Yields (Touches w (placeTarget (w.place t)) (some t)) (w.proceed t) := by
  unfold proceed
  generalize w.place t = p
  cases p with
  | idle => exact yields_none
  | taking o | locking o | watching o => exact yields_some (.finish rfl (.inl rfl))
  | posting o value timeout tickDelta =>
      dsimp only
      cases hx : w.object o with
      | mailbox m => exact yields_map fun r _ => touches_posted (by rw [hx]; rfl) r
      | _ => exact yields_none
  | fetching o timeout tickDelta =>
      dsimp only
      cases hx : w.object o with
      | mailbox m => exact yields_map fun r _ => touches_fetched (by rw [hx]; rfl) r
      | _ => exact yields_none
  | receiving o size timeout tickDelta =>
      dsimp only
      cases hx : w.object o with
      | queue q => exact yields_map fun r _ => touches_received (by rw [hx]; rfl) r
      | _ => exact yields_none
  | sending o urgent msg buffer =>
      dsimp only
      cases hx : w.object o with
      | queue q => exact yields_map fun _ _ => .finish (by rw [hx]; rfl) (.inl rfl)
      | _ => exact yields_none
  | copying o msg size =>
      dsimp only
      cases hx : w.object o with
      | queue q => exact yields_some (.finish (by rw [hx]; rfl) (.inl rfl))
      | _ => exact yields_none

theorem ipc_touches (fuel : ℕ) (c : Ipc.Call ο θ) :
    Yields (Touches w (w.target (.ipc c)) (actor (.ipc c))) (w.ipc fuel c) := by
  unfold ipc
  cases c with
  | take t o time =>
      dsimp only
      cases hx : w.object o with
      | semaphore | mutex =>
          exact yields_map fun _ _ => .finish (by rw [hx]; rfl) (Fits.ite (.inr ⟨rfl,rfl⟩))
      | _ => exact yields_none
  | release t o =>
      dsimp only
      cases hx : w.object o with
      | semaphore | mutex => exact yields_map fun _ _ => .change (by rw [hx]; rfl)
      | _ => exact yields_none
  | recvEvent t o set option timeout =>
      dsimp only
      cases hx : w.object o with
      | event => exact yields_map fun _ _ => .finish (by rw [hx]; rfl) (Fits.ite (.inr ⟨rfl,rfl⟩))
      | _ => exact yields_none
  | sendEvent o set =>
      dsimp only
      cases hx : w.object o with
      | event => exact yields_map fun _ _ => .change (by rw [hx]; rfl)
      | _ => exact yields_none
  | sendWait t o value timeout =>
      dsimp only
      cases hx : w.object o with
      | mailbox => exact yields_map fun r _ => touches_posted (by rw [hx]; rfl) r
      | _ => exact yields_none
  | recvMail t o timeout =>
      dsimp only
      cases hx : w.object o with
      | mailbox => exact yields_map fun r _ => touches_fetched (by rw [hx]; rfl) r
      | _ => exact yields_none
  | sendMessage t o urgent buffer =>
      dsimp only
      cases hx : w.object o with
      | queue q =>
          refine yields_map fun r _ => ?_
          obtain ⟨q,e | msg⟩ := r
          · exact .change (by rw [hx]; rfl)
          · exact .finish (by rw [hx]; rfl) (.inr ⟨rfl,rfl⟩)
      | _ => exact yields_none
  | recvMessage t o size timeout =>
      dsimp only
      cases hx : w.object o with
      | queue => exact yields_map fun r _ => touches_received (by rw [hx]; rfl) r
      | _ => exact yields_none
  | proceed t => exact proceed_touches t
  | expire t => exact yields_map fun _ _ => .within
  | tick => exact yields_map fun _ _ => .within

/-- Behind a wait that is not a loop nothing is left to do. -/
theorem proceed_still (ho : placeTarget (w.place t) = some o) (hm : kind (w.object o) ≠ .mailbox)
    (hq : kind (w.object o) ≠ .queue) :
    Yields (fun w' => w'.kernel = w.kernel ∧ w'.object = w.object) (w.proceed t) := by
  have hne : ∀ o', placeTarget (w.place t) = some o' →
      (∀ m, w.object o' ≠ .mailbox m) ∧ ∀ q, w.object o' ≠ .queue q := by
    intro o' ho'
    obtain rfl := Option.some.inj (ho'.symm.trans ho)
    exact ⟨fun m h => hm (by rw [h]; rfl),fun q h => hq (by rw [h]; rfl)⟩
  clear ho
  unfold proceed
  generalize w.place t = p at hne ⊢
  cases p with
  | idle => exact yields_none
  | taking o | locking o | watching o => exact yields_some ⟨rfl,Function.update_eq_self _ _⟩
  | posting o' | fetching o' =>
      dsimp only
      cases hx : w.object o' with
      | mailbox m => exact absurd hx ((hne o' rfl).1 m)
      | _ => exact yields_none
  | receiving o' | sending o' | copying o' =>
      dsimp only
      cases hx : w.object o' with
      | queue q => exact absurd hx ((hne o' rfl).2 q)
      | _ => exact yields_none

/-- A call changes no object but its own, and no place but that of the thread that makes it. -/
theorem step_touches (fuel : ℕ) (c : Call ο θ) :
    Yields (Touches w (w.target c) (actor c)) (step fuel w c) := by
  cases c with
  | ipc c => exact ipc_touches fuel c
  | control o cmd arg =>
      unfold step control
      dsimp only
      cases hx : w.object o with
      | mutex => exact yields_some (.change (by rw [hx]; rfl))
      | _ => exact yields_map fun _ _ => .change (by rw [hx]; rfl)
  | sleepReturn | enterCritical => exact yields_some .within
  | _ => exact yields_map fun _ _ => .within

end frame

variable {σ : Type} [DecidableEq θ] [ListFamily σ (ListId ο) θ] {o : ο}

/-- The suspend list of `o` is empty. -/
abbrev Deserted (k : Kernel σ θ) (o : ο) : Prop := ListFamily.empty k.lists (ListId.suspend o) = true

/-- Nobody waits on a semaphore with a value, or on a mutex that is free. -/
def Unneeded (k : Kernel σ θ) (o : ο) : Object θ → Prop
  | .semaphore value => value ≠ 0 → Deserted k o
  | .mutex m => m.value ≠ 0 ∨ m.owner = none → Deserted k o
  | _ => True

section own

variable {k k' : Kernel σ θ} {value : BitVec 16} {m : Mutex θ} {t : θ} {time : BitVec 32}

omit [DecidableEq θ] in
theorem Unneeded.congr {x : Object θ} (H : Unneeded k o x)
    (h : ListFamily.empty k'.lists (ListId.suspend o) =
      ListFamily.empty k.lists (ListId.suspend o)) : Unneeded k' o x := by
  cases x with
  | semaphore | mutex => simpa only [Unneeded,Deserted,h] using H
  | _ => trivial

theorem semaphore_take_unneeded (H : Unneeded k o (.semaphore value)) :
    Yields (fun r => Unneeded r.1 o (.semaphore r.2.1)) (Semaphore.take k o value t time) := by
  refine Yields.ite (fun hvalue => yields_some fun _ => H (by bv_omega)) fun hvalue => ?_
  refine Yields.ite (fun _ => yields_some H) fun _ => ?_
  refine yields_bind fun k₁ _ => yields_bind fun k₂ _ => yields_bind fun k₃ _ => yields_some ?_
  exact fun hne => absurd (by bv_omega) hne

theorem listResumeAll_deserted (fuel : ℕ) (k : Kernel σ θ) :
    Yields (Deserted · o) (k.listResumeAll o fuel) := by
  induction fuel generalizing k with
  | zero => exact yields_none
  | succ fuel ih =>
      refine Yields.ite (fun h => yields_some h) fun _ => ?_
      exact yields_bind fun t _ => yields_bind fun s _ => yields_bind fun r _ => ih r.1

theorem semaphore_control_unneeded {fuel : ℕ} {cmd : BitVec 8} {arg : BitVec 32}
    (H : Unneeded k o (.semaphore value)) :
    Yields (fun r => Unneeded r.1 o (.semaphore r.2.1))
      (Semaphore.control fuel k o value cmd arg) := by
  refine Yields.ite (fun _ => ?_) fun _ => yields_some H
  refine (listResumeAll_deserted fuel k).bind fun k₁ h₁ => yields_bind fun k₂ h₂ => ?_
  obtain ⟨c,rfl⟩ := process_some h₂
  exact yields_some fun _ => h₁

theorem mutex_take_unneeded (H : Unneeded k o (.mutex m)) :
    Yields (fun r => Unneeded r.1 o (.mutex r.2.1)) (Mutex.take k o m t time) := by
  refine Yields.ite (fun _ => yields_some H) fun _ => ?_
  refine Yields.ite (fun hvalue => yields_some fun _ => H (.inl (by bv_omega))) fun hvalue => ?_
  refine Yields.ite (fun _ => yields_some H) fun _ => ?_
  refine yields_bind fun u hown => yields_bind fun k₁ _ => yields_bind fun k₂ _ =>
    yields_bind fun k₃ _ => yields_bind fun k₄ _ => yields_some ?_
  rintro (h | h)
  · exact absurd (by bv_omega) h
  · cases hown.symm.trans h

variable [LocalLists σ]

theorem semaphore_release_unneeded (H : Unneeded k o (.semaphore value)) :
    Yields (fun r => Unneeded r.1 o (.semaphore r.2.1)) (Semaphore.release k o value) := by
  unfold Semaphore.release Kernel.listResume
  cases hfront : ListFamily.front k.lists (ListId.suspend o) with
  | none => exact yields_some fun _ => LocalLists.front.mp hfront
  | some u =>
      -- somebody waits, so there is no value
      have hzero : ¬value ≠ 0 := fun hne => by
        cases hfront.symm.trans (LocalLists.front.mpr (H hne))
      refine Yields.bind (P := fun r => r.2 = ERR_OK) (yields_bind fun s _ => yields_bind fun r _ =>
        yields_some rfl) fun r hr => ?_
      exact Yields.ite (fun _ => yields_bind fun k₁ _ => yields_some fun hne => absurd hne hzero)
        fun h => absurd hr h

theorem mutex_release_unneeded (H : Unneeded k o (.mutex m)) :
    Yields (fun r => Unneeded r.1 o (.mutex r.2.1)) (Mutex.release k o m t) := by
  refine Yields.ite (fun _ => yields_some H) fun _ => Yields.ite (fun _ => ?_) fun _ => yields_some H
  refine Yields.bind (P := fun r => Unneeded r.1 o (.mutex r.2)) ?_ fun r hr => yields_some hr
  refine (Mutex.restore_empty k o t _).bind fun k₁ h₁ => Yields.ite (fun hempty => yields_some fun _ => hempty)
    fun hempty => ?_
  refine yields_bind fun u _ => yields_bind fun r _ => yields_bind fun k₂ _ => yields_some ?_
  rintro (h | h)
  · exact absurd (h₁.trans (H (.inl h))) hempty
  · cases h

end own

variable [DecidableEq ο] {w : System σ ο θ}

theorem listResumeAll_empty (fuel : ℕ) (k : IdealKernel ο θ) :
    Yields (fun k' => k'.lists.get (.suspend o) = []) (k.listResumeAll o fuel) :=
  (listResumeAll_deserted fuel k).imp fun _ => List.isEmpty_iff.mp

/-- A call changes no wait list but those of its own object. -/
theorem step_holds {α : Type} {f : σ → α} {a : α} {l : ListId ο} (F : Reads l f) (hwait : l.IsWait)
    (fuel : ℕ) {c : Call ο θ} (hc : w.Orderly c)
    (hl : ∀ o, w.target c = some o → ListId.suspend o ≠ l ∧ ListId.sender o ≠ l)
    (H : Holds f a w.kernel) : Yields (fun w' => Holds f a w'.kernel) (step fuel w c) :=
  step_keeps (holds_system F hwait) fuel hc
    (fun o ho => ⟨⟨trivial,(hl o ho).1⟩,⟨trivial,(hl o ho).2⟩⟩) H

theorem unneeded_finish {t : θ} {k : Kernel σ θ} {x : Object θ} {p : Place ο}
    (H : Unneeded k o x) :
    Unneeded (w.finish o t k x p).kernel o ((w.finish o t k x p).object o) := by
  simpa [finish] using H

omit [DecidableEq θ] in
theorem unneeded_change {k : Kernel σ θ} {x : Object θ} (H : Unneeded k o x) :
    Unneeded (w.change o k x).kernel o ((w.change o k x).object o) := by
  simpa [change] using H

variable [LocalLists σ]

/-- The calls on a semaphore. -/
theorem semaphore_unneeded (fuel : ℕ) {value : BitVec 16} {c : Call ο θ} (hc : w.Orderly c)
    (hx : w.object o = .semaphore value) (ho : w.target c = some o)
    (H : Unneeded w.kernel o (w.object o)) :
    Yields (fun w' => Unneeded w'.kernel o (w'.object o)) (step fuel w c) := by
  cases c with
  | ipc c =>
      unfold step ipc
      cases c with
      | proceed t =>
          intro w' hw'
          obtain ⟨hk,hobject⟩ := proceed_still ho (by simp [hx,kind]) (by simp [hx,kind]) w' hw'
          rwa [hk,hobject]
      | expire | tick => cases ho
      | take =>
          obtain rfl := Option.some.inj ho
          rw [hx] at H
          simp only [hx]
          exact (semaphore_take_unneeded H).map fun _ => unneeded_finish
      | release =>
          obtain rfl := Option.some.inj ho
          rw [hx] at H
          simp only [hx]
          exact (semaphore_release_unneeded H).map fun _ => unneeded_change
      | _ =>
          obtain rfl := Option.some.inj ho
          simp only [hx]
          exact yields_none
  | control =>
      obtain rfl := Option.some.inj ho
      rw [hx] at H
      unfold step control
      simp only [hx]
      exact (semaphore_control_unneeded H).map fun _ => unneeded_change
  | _ => cases ho

/-- The calls on a mutex. -/
theorem mutex_unneeded (fuel : ℕ) {m : Mutex θ} {c : Call ο θ} (hc : w.Orderly c)
    (hx : w.object o = .mutex m) (ho : w.target c = some o)
    (H : Unneeded w.kernel o (w.object o)) :
    Yields (fun w' => Unneeded w'.kernel o (w'.object o)) (step fuel w c) := by
  cases c with
  | ipc c =>
      unfold step ipc
      cases c with
      | proceed t =>
          intro w' hw'
          obtain ⟨hk,hobject⟩ := proceed_still ho (by simp [hx,kind]) (by simp [hx,kind]) w' hw'
          rwa [hk,hobject]
      | expire | tick => cases ho
      | take =>
          obtain rfl := Option.some.inj ho
          rw [hx] at H
          simp only [hx]
          exact (mutex_take_unneeded H).map fun _ => unneeded_finish
      | release =>
          obtain rfl := Option.some.inj ho
          rw [hx] at H
          simp only [hx]
          exact (mutex_release_unneeded H).map fun _ => unneeded_change
      | _ =>
          obtain rfl := Option.some.inj ho
          simp only [hx]
          exact yields_none
  | control =>
      obtain rfl := Option.some.inj ho
      rw [hx] at H
      unfold step control
      simp only [hx]
      exact yields_some (unneeded_change H)
  | _ => cases ho

theorem step_unneeded (fuel : ℕ) {c : Call ο θ} (hc : w.Orderly c)
    (H : Unneeded w.kernel o (w.object o)) :
    Yields (fun w' => Unneeded w'.kernel o (w'.object o)) (step fuel w c) := by
  by_cases ho : w.target c = some o
  · cases hx : w.object o with
    | semaphore value => exact semaphore_unneeded fuel hc hx ho H
    | mutex m => exact mutex_unneeded fuel hc hx ho H
    | event | mailbox | queue =>
        intro w' hw'
        have hkind := (step_touches fuel c w' hw').same_kind o
        rw [hx] at hkind
        cases hx' : w'.object o with
        | semaphore | mutex =>
            rw [hx'] at hkind
            cases hkind
        | _ => trivial
  · intro w' hw'
    rw [(step_touches fuel c w' hw').object ho]
    refine H.congr (step_holds (reads_empty (.suspend o)) trivial fuel hc (fun o' ho' => ?_) rfl w' hw')
    refine ⟨fun h => ho ?_,fun h => by cases h⟩
    rw [ho',ListId.suspend.inj h]

end System

end CosKernel
