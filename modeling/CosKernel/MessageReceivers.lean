import CosKernel.MailboxSenders
import CosKernel.MessageDeque
import CosKernel.Sleepers

/-!
# No message waits for a sleeper

A thread that finds a mailbox or a message queue empty goes to sleep, and each message that arrives
wakes one thread. Between the wake-up and the new test of the woken thread others may take the
message, and more messages may arrive. Still, as long as no wait ends by a timeout, there are never
more messages than woken receivers on their way while a receiver sleeps, whatever else the kernel
does.
-/
namespace CosKernel
open PartialMorphisms TransitionRuns Kernel Ipc

section counting
open MailboxSenders

variable {θ : Type} [Fintype θ] {f g : θ → Bool} {t u : θ}

theorem count_mono (h : ∀ v, f v = true → g v = true) : count f ≤ count g :=
  Finset.card_le_card (Finset.monotone_filter_right _ fun v _ => h v)

variable [DecidableEq θ]

/-- At most `t` is lost. -/
theorem count_lose (h : ∀ v, v ≠ t → f v = true → g v = true) : count f ≤ count g+1 := by
  refine (count_clear f t).trans (Nat.succ_le_succ (count_mono fun v hv => ?_))
  by_cases hvt : v = t
  · simp [hvt] at hv
  · exact h v hvt (by simpa [hvt] using hv)

/-- At least `u` is won. -/
theorem count_gain (h : ∀ v, f v = true → g v = true) (hf : f u = false) (hg : g u = true) :
    count f+1 ≤ count g := by
  rw [← count_set (g := fun v => f v || decide (v = u)) hf fun _ => rfl]
  refine count_mono fun v hv => ?_
  rcases Bool.or_eq_true_iff.mp hv with hv | hv
  · exact h v hv
  · rw [of_decide_eq_true hv]
    exact hg

end counting

namespace Kernel

variable {ο θ : Type} [DecidableEq ο] [DecidableEq θ]
variable {k k' : IdealKernel ο θ} {l : ListId ο} {L : ListId ο → Prop} {t u : θ} {x y : Thread}

/-- The thread `u` is as it was when its fields were `x`, and in none of the lists `L`. -/
structure Apart (u : θ) (x : Thread) (L : ListId ο → Prop) (k : IdealKernel ο θ) : Prop where
  stat : (k.thread u).stat = x.stat
  error : (k.thread u).error = x.error
  notMem : ∀ l, L l → u ∉ k.lists.get l

/-- Nothing happens to `u`. -/
def without (u : θ) (L : ListId ο → Prop) : Roles ο θ where
  acts v := v ≠ u
  waits v := v ≠ u
  wakes v := v ≠ u
  list := L
  finds _ v := v ≠ u

omit [DecidableEq ο] in
theorem Apart.update (H : Apart u x L k) (h : k'.thread = Function.update k.thread t y)
    (hy : t = u → y.stat = (k.thread u).stat ∧ y.error = (k.thread u).error)
    (hl : ∀ l, L l → u ∈ k'.lists.get l → u ∈ k.lists.get l) : Apart u x L k' := by
  have hkey : (k'.thread u).stat = (k.thread u).stat ∧ (k'.thread u).error = (k.thread u).error := by
    rw [h]
    by_cases htu : u = t
    · subst htu
      simpa using hy rfl
    · simp [htu]
  exact ⟨hkey.1.trans H.stat,hkey.2.trans H.error,fun l hL hmem => H.notMem l hL (hl l hL hmem)⟩

omit [DecidableEq ο] in
theorem Apart.congr (H : Apart u x L k) (h : k'.thread = k.thread)
    (hl : ∀ l, L l → u ∈ k'.lists.get l → u ∈ k.lists.get l) : Apart u x L k' :=
  H.update (t := u) (y := k.thread u) (by simp [h]) (fun _ => ⟨rfl,rfl⟩) hl

omit [DecidableEq ο] in
theorem Acts.others {blocked : Bool} (h : Acts k l t k' blocked) (hu : u ≠ t) :
    ((k.thread u).stat = .ready → (k'.thread u).stat = .ready) ∧
      (k'.thread u).error = (k.thread u).error := by
  cases h with
  | keeps hk => exact ⟨fun h => (hk.stat u).trans h,hk.error u hu⟩
  | parks hk => exact ⟨fun h => (hk.others u hu).1.trans h,(hk.others u hu).2⟩
  | wakes _ _ hk => exact ⟨hk.ready_after,hk.error u⟩

variable (hL : ∀ l, L l → l.IsWait)
include hL

theorem Apart.resume (H : Apart u x L k) (ht : t ≠ u) :
    Yields (fun r => Apart u x L r.1) (k.resume t) := by
  intro r hr
  by_cases hs : (k.thread t).stat = .suspend
  · obtain ⟨s,q,hs,hk⟩ := resume_some hs hr
    obtain rfl := Option.some.inj hs
    refine H.update (congrArg Kernel.thread hk) (fun h => absurd h ht) fun l hl hmem => ?_
    rw [hk] at hmem
    simpa [isWait_ne_ready (hL l hl)] using hmem
  · rwa [resume_other hs hr]

theorem apart_kept : KernelInvariant (without u L) (Apart u x L) where
  found {k l v} hl H hf hv := by
    subst hv
    exact H.notMem l hl (found_mem hf)
  modify ht _ _ H := H.update rfl (fun h => absurd h ht) fun _ _ => id
  request ht _ H := H.update rfl (fun h => absurd h ht) fun _ _ => id
  suspend {k t} ht H r hr := by
    by_cases hs : (k.thread t).stat = .ready
    · obtain ⟨s,q,hs,hk⟩ := suspend_some hs hr
      obtain rfl := Option.some.inj hs
      refine H.update (congrArg Kernel.thread hk) (fun h => absurd h ht) fun l hl hmem => ?_
      rw [hk] at hmem
      simpa [isWait_ne_ready (hL l hl)] using hmem
    · rw [Kernel.suspend,if_pos hs] at hr
      cases hr
      exact H
  changePriority {k} t p H k' hk' := by
    refine H.update (changePriority_some hk').1 (fun h => ?_) fun l hl hmem => ?_
    · subst h
      exact ⟨rfl,rfl⟩
    · rwa [changePriority_get (hL l hl) hk'] at hmem
  timerStart tick ht _ H :=
    Yields.ite (fun _ => yields_some (H.update rfl (fun h => absurd h ht) fun _ _ => id))
      fun _ => yields_none
  pushBack {k l' t} _ ht H s hs := by
    obtain rfl := Option.some.inj hs
    refine H.congr rfl fun l _ hmem => ?_
    by_cases hll : l = l'
    · subst hll
      simpa [Ne.symm (show t ≠ u from ht)] using hmem
    · simpa [hll] using hmem
  wake {k k₁ l' t} _ ht hk H := by
    obtain ⟨y,-,rfl⟩ := hk
    refine yields_bind fun s hs => Apart.resume hL ?_ ht
    obtain rfl := Option.some.inj hs
    refine H.update rfl (fun h => absurd h ht) fun l _ hmem => ?_
    by_cases hll : l = l'
    · subst hll
      exact List.mem_of_mem_erase (by simpa using hmem)
    · simpa [hll] using hmem
  process {k} H k' hk' := by
    obtain ⟨c,rfl⟩ := process_some hk'
    exact H.congr rfl fun _ _ => id

theorem apart_system : SystemInvariant (without u L) (Apart u x L) where
  toKernelInvariant := apart_kept hL
  current _ _ H := H.congr rfl fun _ _ => id
  spend H := H.update rfl (fun h => by
    subst h
    exact ⟨rfl,rfl⟩) fun _ _ => id
  begin {k t} ht _ H := by
    have H₁ : Apart u x L (k.modify t fun x =>
        {x with currentPriority := x.initPriority, stat := .suspend}) :=
      H.update rfl (fun h => absurd h ht) fun _ _ => id
    exact H₁.resume hL ht
  resume ht H := H.resume hL ht
  expire {k t} ht _ H k' hk' := by
    obtain ⟨-,y,hy,-⟩ := expire_thread hk'
    exact H.update hy (fun h => absurd h ht) fun l hl hmem => by rwa [expire_queue hk' (hL l hl)] at hmem
  rotate {k t s₁ s₂} _ H h₁ h₂ := by
    obtain rfl := Option.some.inj h₁
    obtain rfl := Option.some.inj h₂
    exact H.congr rfl fun l hl hmem => by simpa [isWait_ne_ready (hL l hl)] using hmem
  remove t H k' hk' := by
    obtain ⟨s,r,hs,rfl⟩ := removeThread_some hk'
    obtain rfl := Option.some.inj hs
    exact H.congr rfl fun l hl hmem => by simpa [isWait_ne_ready (hL l hl)] using hmem
  close ht H := H.update rfl (fun h => absurd h ht) fun _ _ => id
  defunct {k} t H s hs := by
    obtain rfl := Option.some.inj hs
    exact H.congr rfl fun l hl hmem => by simpa [isWait_ne_defunct (hL l hl)] using hmem
  reap {k} t H s hs := by
    obtain rfl := Option.some.inj hs
    exact H.congr rfl fun l hl hmem => by simpa [isWait_ne_defunct (hL l hl)] using hmem

end Kernel

namespace System
open MailboxSenders (count)

variable {ο θ : Type} [DecidableEq ο] [DecidableEq θ] {w w' : IdealSystem ο θ} {o : ο} {t u : θ}

/-- The messages in an object. -/
def supply : Object θ → ℕ
  | .mailbox m => m.entry.toNat
  | .queue q => q.entry.toNat
  | _ => 0

/-- The thread has been woken in a wait on `o` and has not tested the object again. -/
def onWay (w : IdealSystem ο θ) (o : ο) (t : θ) : Bool :=
  decide ((w.place t).list = some (.suspend o) ∧ (w.kernel.thread t).stat = .ready ∧
    (w.kernel.thread t).error = ERR_OK)

/-- While somebody sleeps, every message has somebody on the way. -/
def Prompt [Fintype θ] (w : IdealSystem ο θ) (o : ο) : Prop :=
  w.kernel.lists.get (.suspend o) ≠ [] → supply (w.object o) ≤ count (w.onWay o)

theorem Calm.orderly {c : Call ο θ} (hc : w.Calm c) : w.Orderly c := by
  cases c with
  | ipc c => exact hc
  | sleep tick => exact fun t ht => ⟨trivial,(hc t ht).2⟩
  | exit | excute => exact fun _ _ => trivial
  | _ => trivial

omit [DecidableEq ο] in
theorem target_of_list {p : Place ο} (h : p.list = some (.suspend o)) : placeTarget p = some o := by
  cases p <;> simp_all [Place.list,placeTarget]

/-- A thread in a wait is left alone by the calls of others on other lists. -/
theorem Undisturbed.apart {c : Call ο θ} {L : ListId ο → Prop} {l : ListId ο} (hc : w.Undisturbed c)
    (hu : actor c ≠ some u) (hp : (w.place u).list = some l) : w.Admits (without u L) c := by
  have hadmits := hc.admits hu
  have hne : ∀ v, (v = u → (w.place u).list = none) → v ≠ u := by
    intro v h hv
    rw [hp] at h
    cases h hv
  cases c with
  | ipc c =>
      cases c with
      | take v | recvEvent v | sendWait v | recvMail v | sendMessage v | recvMessage v | proceed v =>
          exact ⟨⟨hadmits.1.2,hadmits.1.2⟩,hadmits.2⟩
      | expire v | release v => exact ⟨hne v hadmits.1,hadmits.2⟩
      | sendEvent | tick => trivial
  | sleep tick => exact fun v hv => ⟨hne v (hadmits v hv).1,(hadmits v hv).2⟩
  | suspend v | sleepReturn v | startup v | resume v => exact hne v hadmits
  | exit | excute => exact fun v hv => hne v (hadmits v hv)
  | _ => trivial

/-- A thread makes calls from outside of all calls, or goes on with the one it is in. -/
theorem actor_place {c : Call ο θ} (hc : w.Calm c) (ht : actor c = some t) :
    w.place t = .idle ∨ w.target c = placeTarget (w.place t) := by
  cases c with
  | ipc c =>
      cases c with
      | proceed u =>
          obtain rfl := Option.some.inj ht
          exact .inr rfl
      | take u | recvEvent u | sendWait u | recvMail u | sendMessage u | recvMessage u =>
          obtain rfl := Option.some.inj ht
          exact .inl hc.2.1
      | _ => cases ht
  | _ => cases ht

/-- A thread stays where it is, leaves its call or is in a call on the object in question. -/
theorem Touches.place_cases {o' : Option ο} {t' : Option θ} (H : Touches w o' t' w') (t : θ) :
    w'.place t = w.place t ∨ w'.place t = .idle ∨ placeTarget (w'.place t) = o' := by
  cases H with
  | @finish o' t' k x p hx hp =>
      by_cases ht : t = t'
      · subst ht
        rw [finish_place]
        exact .inr (hp.imp id And.left)
      · exact .inl (Function.update_of_ne ht _ _)
  | change | within => exact .inl rfl

/-- The receivers of an object are left alone by calls on others. -/
theorem onWay_other (fuel : ℕ) {c : Call ο θ} (hc : w.Undisturbed c) (S : Seated w)
    (ho : w.target c ≠ some o) (hw' : step fuel w c = some w') (v : θ) :
    w'.onWay o v = w.onWay o v := by
  have T := step_touches fuel c w' hw'
  by_cases hp : (w.place v).list = some (.suspend o)
  · have ha : actor c ≠ some v := by
      intro ha
      rcases actor_place hc.1 ha with hidle | htarget
      · rw [hidle] at hp
        cases hp
      · exact ho (htarget.trans (target_of_list hp))
    have hwait : ∀ l : ListId ο, l.IsWait ∧ l ≠ .suspend o → l.IsWait := fun l hl => hl.1
    have happart : Apart v (w.kernel.thread v) (fun l => l.IsWait ∧ l ≠ .suspend o) w'.kernel := by
      refine step_keeps (apart_system hwait) fuel (hc.apart ha hp) (fun o' ho' => ?_)
        ⟨rfl,rfl,fun l hl hmem => ?_⟩ w' hw'
      · refine ⟨⟨trivial,fun h => ho ?_⟩,⟨trivial,fun h => by cases h⟩⟩
        rw [ho',ListId.suspend.inj h]
      · exact hl.2 (Option.some.inj ((((S v).mem hl.1).mp hmem).2.symm.trans hp))
    unfold onWay
    rw [T.place ha,happart.stat,happart.error]
  · have hp' : (w'.place v).list ≠ some (.suspend o) := by
      intro h
      rcases T.place_cases v with hsame | hidle | htarget
      · exact hp (hsame ▸ h)
      · rw [hidle] at h
        cases h
      · exact ho (htarget.symm.trans (target_of_list h))
    simp [onWay,hp,hp']

variable [Fintype θ]

theorem prompt_other (fuel : ℕ) {c : Call ο θ} (hc : w.Undisturbed c) (S : Seated w)
    (ho : w.target c ≠ some o) (H : Prompt w o) : Yields (fun w' => Prompt w' o) (step fuel w c) := by
  intro w' hw' hlist
  have hsame : w'.kernel.lists.get (.suspend o) = w.kernel.lists.get (.suspend o) := by
    refine step_holds (reads_get (.suspend o)) trivial fuel hc.1.orderly (fun o' ho' => ?_) rfl w' hw'
    exact ⟨fun h => ho (by rw [ho',ListId.suspend.inj h]),fun h => by cases h⟩
  rw [hsame] at hlist
  rw [(step_touches fuel c w' hw').object ho,funext (onWay_other fuel hc S ho hw')]
  exact H hlist

section own

variable {k : IdealKernel ο θ} {l : ListId ο} {x : Object θ} {p : Place ο} {blocked : Bool}

omit [Fintype θ] in
/-- Whoever else is on the way stays on it. -/
theorem onWay_finish (h : Acts w.kernel l t k blocked) {v : θ} (hv : v ≠ t)
    (hon : w.onWay o v = true) : (w.finish o t k x p).onWay o v = true := by
  simp only [onWay,decide_eq_true_eq] at hon ⊢
  obtain ⟨hplace,hstat,herror⟩ := hon
  have hplace' : (w.finish o t k x p).place v = w.place v := Function.update_of_ne hv _ _
  obtain ⟨hstat',herror'⟩ := h.others hv
  rw [hplace']
  exact ⟨hplace,hstat' hstat,herror'.trans herror⟩

theorem prompt_empty (hx : supply x = 0) : Prompt (w.finish o t k x p) o := by
  intro _
  simp [finish,hx]

theorem prompt_nobody (hlist : k.lists.get (.suspend o) = []) : Prompt (w.finish o t k x p) o :=
  fun h => absurd hlist h

/-- No message has come, and no receiver of the object has been lost. -/
theorem prompt_calm (H : Prompt w o) (h : Acts w.kernel l t k blocked)
    (hlist : k.lists.get (.suspend o) = w.kernel.lists.get (.suspend o))
    (hx : supply x = supply (w.object o)) (ht : w.onWay o t = false) :
    Prompt (w.finish o t k x p) o := by
  intro hne
  have hold := H (by simpa [finish,hlist] using hne)
  have hcount : count (w.onWay o) ≤ count ((w.finish o t k x p).onWay o) := by
    refine count_mono fun v hv => onWay_finish h (fun hvt => ?_) hv
    rw [hvt,ht] at hv
    cases hv
  simp only [finish,Function.update_self,hx]
  exact hold.trans hcount

/-- A message has been taken out by `t`, which may have been on the way. -/
theorem prompt_taken (H : Prompt w o) (h : Acts w.kernel l t k blocked)
    (hlist : k.lists.get (.suspend o) = w.kernel.lists.get (.suspend o))
    (hx : supply x+1 = supply (w.object o)) : Prompt (w.finish o t k x p) o := by
  intro hne
  have hold := H (by simpa [finish,hlist] using hne)
  have hcount : count (w.onWay o) ≤ count ((w.finish o t k x p).onWay o)+1 :=
    count_lose fun v hv => onWay_finish h hv
  have hobject : (w.finish o t k x p).object o = x := by simp [finish]
  rw [hobject]
  omega

/-- A message has come, and the first receiver that sleeps has been woken for it. -/
theorem prompt_posted {us : List θ} (H : Prompt w o) (S : Seated w)
    (ht : (w.kernel.thread t).stat = .ready) (hplace : (w.place t).list ≠ some (.suspend o))
    (hq : w.kernel.lists.get (.suspend o) = u::us) (hk : Wakes w.kernel k (.suspend o) u)
    (hx : supply x ≤ supply (w.object o)+1) : Prompt (w.finish o t k x p) o := by
  intro _
  have hold := H (by simp [hq])
  obtain ⟨hsleeps,hlist⟩ := ((S u).mem (l := .suspend o) trivial).mp (by simp [hq])
  have hut : u ≠ t := by
    rintro rfl
    exact hplace hlist
  have hcount : count (w.onWay o)+1 ≤ count ((w.finish o t k x p).onWay o) := by
    refine count_gain (u := u) (fun v hv => ?_) (by simp [onWay,hsleeps]) ?_
    · refine onWay_finish (l := .suspend o) (.wakes (m := .suspend o) trivial hq hk) ?_ hv
      rintro rfl
      simp [onWay,hplace] at hv
    · have hplace' : (w.finish o t k x p).place u = w.place u := Function.update_of_ne hut _ _
      have herror := (S u).error hsleeps (by simp [hlist])
      simp only [onWay,decide_eq_true_eq]
      rw [hplace']
      exact ⟨hlist,hk.asleep hsleeps,(hk.error u).trans herror⟩
  have hobject : (w.finish o t k x p).object o = x := by simp [finish]
  rw [hobject]
  omega

omit [DecidableEq θ] [Fintype θ] in
theorem not_onWay (h : (w.place t).list ≠ some (.suspend o)) : w.onWay o t = false := by
  simp [onWay,h]

omit [DecidableEq θ] [Fintype θ] in
theorem not_onWay_of_error (h : (w.kernel.thread t).error ≠ ERR_OK) : w.onWay o t = false := by
  simp [onWay,h]

theorem prompt_sends {m m' : MailBox} {value : BitVec 32} {r : Progress ℤ}
    (h : MailBox.Sends w.kernel o m t value k m' r) (hx : w.object o = .mailbox m) (H : Prompt w o)
    (S : Seated w) (ht : (w.kernel.thread t).stat = .ready)
    (hplace : (w.place t).list ≠ some (.suspend o)) : Prompt (w.posted o t value (k,m',r)) o := by
  have hacts := MailBox.sends_acts h
  cases h with
  | full _ hk =>
      exact prompt_calm H hacts (hk.queue (.suspend o) trivial) (by rw [hx]) (not_onWay hplace)
  | blocked _ _ _ hk =>
      exact prompt_calm H hacts (hk.queue (.suspend o) trivial (by simp)) (by rw [hx])
        (not_onWay hplace)
  | alone _ hq => exact prompt_nobody hq
  | waking u us _ hq hk =>
      refine prompt_posted H S ht hplace hq hk ?_
      rw [hx]
      simp only [supply,MailBox.store]
      bv_omega

theorem prompt_fetches {m m' : MailBox} {r : Progress (ℤ × Option (BitVec 32))}
    (h : MailBox.Receives w.kernel o m t k m' r) (hx : w.object o = .mailbox m) (H : Prompt w o) :
    Prompt (w.fetched o t (k,m',r)) o := by
  have hacts := MailBox.receives_acts h
  have htaken : m.entry ≠ 0 → supply (.mailbox (MailboxFifo.withoutFirst m) : Object θ)+1 =
      supply (w.object o) := by
    intro hne
    rw [hx]
    simp only [supply,MailboxFifo.withoutFirst]
    bv_omega
  cases h with
  | empty hempty => exact prompt_empty (by simp [supply,hempty])
  | blocked _ _ hempty => exact prompt_empty (by simp [supply,hempty])
  | alone _ hentry => exact prompt_taken H hacts rfl (htaken hentry)
  | waking u us _ hentry _ hk =>
      exact prompt_taken H hacts (hk.queue (.suspend o) trivial (by simp)) (htaken hentry)

theorem prompt_receives {q q' : MessageQueue} {size : ℕ} {r : Progress (ℤ ⊕ ℕ)}
    (h : MessageQueue.Receives w.kernel o q t k q' r) (hx : w.object o = .queue q) (H : Prompt w o) :
    Prompt (w.received o t size (k,q',r)) o := by
  have hacts := MessageQueue.receives_acts h
  cases h with
  | empty hempty => exact prompt_empty (by simp [supply,hempty])
  | blocked _ _ hempty => exact prompt_empty (by simp [supply,hempty])
  | taken msg hentry hq =>
      refine prompt_taken H hacts rfl ?_
      rw [hx]
      simp only [supply,hq]
      bv_omega

theorem prompt_notified {q q' : MessageQueue} (hx : w.object o = .queue q) (H : Prompt w o)
    (S : Seated w) (ht : (w.kernel.thread t).stat = .ready)
    (hplace : (w.place t).list ≠ some (.suspend o)) (hq : q'.entry = q.entry+1) :
    Yields (fun r => Prompt (w.finish o t r.1 (.queue q') p) o) (MessageQueue.notify w.kernel o) := by
  refine MessageQueue.notify_wakes.imp fun r hr => ?_
  rcases hr with ⟨hlist,hk⟩ | ⟨u,us,hlist,hk⟩
  · exact prompt_nobody (hk ▸ hlist)
  · refine prompt_posted H S ht hplace hlist hk ?_
    rw [hx]
    simp only [supply,hq]
    bv_omega

/-- A thread goes on in a call on `o`. -/
theorem proceed_prompt (T : Typed w) (S : Seated w) (ht : (w.kernel.thread t).stat = .ready)
    (ho : placeTarget (w.place t) = some o) (H : Prompt w o) :
    Yields (fun w' => Prompt w' o) (w.proceed t) := by
  have hkind := T t o ho
  have hself : Acts w.kernel (.suspend o) t w.kernel false := .keeps (keeps_refl _ t)
  have hway : (w.place t).list ≠ some (.suspend o) → w.onWay o t = false := not_onWay
  have hsleeper : (w.place t).list ≠ some (.suspend o) → ∀ {q q' : MessageQueue},
      w.object o = .queue q → q'.entry = q.entry+1 →
      Yields (fun r => Prompt (w.finish o t r.1 (.queue q') .idle) o)
        (MessageQueue.notify w.kernel o) := fun h _ _ hx hq => prompt_notified hx H S ht h hq
  have hposts : (w.place t).list ≠ some (.suspend o) → ∀ {m m' : MailBox} {value k r},
      MailBox.Sends w.kernel o m t value k m' r → w.object o = .mailbox m →
      Prompt (w.posted o t value (k,m',r)) o := fun h _ _ _ _ _ hs hx => prompt_sends hs hx H S ht h
  unfold proceed
  generalize w.place t = p at ho hkind hway hsleeper hposts ⊢
  cases p with
  | idle => exact yields_none
  | taking | locking | watching =>
      obtain rfl := Option.some.inj ho
      refine yields_some (prompt_empty ?_)
      generalize w.object _ = x at hkind ⊢
      cases x <;> first | rfl | cases hkind
  | posting =>
      obtain rfl := Option.some.inj ho
      dsimp only
      cases hx : w.object _ with
      | mailbox m =>
          refine yields_map fun r hr => ?_
          unfold MailBox.sendProceed at hr
          split_ifs at hr with herror
          · cases hr
            exact prompt_calm H hself rfl (by rw [hx]) (hway (by simp [Place.list]))
          · exact hposts (by simp [Place.list]) (MailBox.sendLoop_sends ht hr) hx
      | _ => exact yields_none
  | fetching =>
      obtain rfl := Option.some.inj ho
      dsimp only
      cases hx : w.object _ with
      | mailbox m =>
          refine yields_map fun r hr => ?_
          unfold MailBox.recvProceed at hr
          split_ifs at hr with herror
          · cases hr
            exact prompt_calm H hself rfl (by rw [hx]) (not_onWay_of_error herror)
          · exact prompt_fetches (MailBox.recvLoop_receives ht hr) hx H
      | _ => exact yields_none
  | receiving =>
      obtain rfl := Option.some.inj ho
      dsimp only
      cases hx : w.object _ with
      | queue q =>
          refine yields_map fun r hr => ?_
          unfold MessageQueue.recvProceed at hr
          split_ifs at hr with herror
          · cases hr
            exact prompt_calm H hself rfl (by rw [hx]) (not_onWay_of_error herror)
          · exact prompt_receives (MessageQueue.recvLoop_receives ht r hr) hx H
      | _ => exact yields_none
  | sending o urgent =>
      obtain rfl := Option.some.inj ho
      dsimp only
      cases hx : w.object _ with
      | queue q =>
          refine Yields.map (hsleeper (by simp [Place.list]) hx ?_) fun _ => id
          cases urgent
          · exact MessageDeque.linkLast_entry
          · rfl
      | _ => exact yields_none
  | copying =>
      obtain rfl := Option.some.inj ho
      dsimp only
      cases hx : w.object _ with
      | queue q =>
          exact yields_some (prompt_calm H hself rfl (by rw [hx]; rfl) (hway (by simp [Place.list])))
      | _ => exact yields_none

omit [DecidableEq θ] in
theorem prompt_change (H : Prompt w o) (hx : supply x = supply (w.object o)) :
    Prompt (w.change o w.kernel x) o := by
  intro hne
  simp only [change,Function.update_self,hx]
  exact H hne

omit [DecidableEq θ] in
theorem prompt_emptied (hlist : k.lists.get (.suspend o) = []) : Prompt (w.change o k x) o :=
  fun h => absurd hlist h

theorem mail_control_prompt {m : MailBox} (fuel : ℕ) {cmd : BitVec 8} (hx : w.object o = .mailbox m)
    (H : Prompt w o) : Yields (fun r => Prompt (w.change o r.1 (.mailbox r.2.1)) o)
      (MailBox.control fuel w.kernel o m cmd) := by
  refine Yields.ite (fun _ => ?_) fun _ => yields_some (prompt_change H (by rw [hx]))
  have hsender : (others (θ := θ) (ListId.suspend o)).list (.sender o) := ⟨trivial,by simp⟩
  have hsuspend : (ListId.suspend o).IsWait := trivial
  refine (listResumeAll_empty fuel w.kernel).bind fun k₁ h₁ => ?_
  refine ((holds_kept (reads_get (.suspend o)) hsuspend).senderResumeAll hsender fuel h₁).bind fun k₂ h₂ => ?_
  refine yields_bind fun k₃ h₃ => ?_
  obtain ⟨c,rfl⟩ := process_some h₃
  exact yields_some (prompt_emptied h₂)

theorem queue_control_prompt {q : MessageQueue} (fuel : ℕ) {cmd : BitVec 8}
    (hx : w.object o = .queue q) (H : Prompt w o) :
    Yields (fun r => Prompt (w.change o r.1 (.queue r.2.1)) o)
      (MessageQueue.control fuel w.kernel o q cmd) := by
  refine Yields.ite (fun _ => ?_) fun _ => yields_some (prompt_change H (by rw [hx]))
  refine (listResumeAll_empty fuel w.kernel).bind fun k₁ h₁ => ?_
  refine yields_bind fun q' _ => yields_bind fun k₂ h₂ => ?_
  obtain ⟨c,rfl⟩ := process_some h₂
  exact yields_some (prompt_emptied h₁)

/-- The calls on a mailbox. -/
theorem mailbox_prompt (fuel : ℕ) {m : MailBox} {c : Call ο θ} (hc : w.Undisturbed c) (T : Typed w)
    (S : Seated w) (hx : w.object o = .mailbox m) (ho : w.target c = some o) (H : Prompt w o) :
    Yields (fun w' => Prompt w' o) (step fuel w c) := by
  have hcalm := hc.1
  cases c with
  | ipc c =>
      unfold step ipc
      cases c with
      | proceed t => exact proceed_prompt T S hcalm.2 ho H
      | expire | tick => cases ho
      | sendWait t =>
          obtain rfl := Option.some.inj ho
          simp only [hx]
          refine yields_map fun r hr => ?_
          have hsends := MailBox.sendWait_sends hcalm.2.2 hr
          exact prompt_sends hsends hx H S hcalm.2.2 (by simp [hcalm.2.1,Place.list])
      | recvMail =>
          obtain rfl := Option.some.inj ho
          simp only [hx]
          exact yields_map fun r hr => prompt_fetches (MailBox.recv_receives hcalm.2.2 hr) hx H
      | _ =>
          obtain rfl := Option.some.inj ho
          simp only [hx]
          exact yields_none
  | control =>
      obtain rfl := Option.some.inj ho
      unfold step control
      simp only [hx]
      exact (mail_control_prompt fuel hx H).map fun _ => id
  | _ => cases ho

/-- The calls on a message queue. -/
theorem queue_prompt (fuel : ℕ) {q : MessageQueue} {c : Call ο θ} (hc : w.Undisturbed c) (T : Typed w)
    (S : Seated w) (hx : w.object o = .queue q) (ho : w.target c = some o) (H : Prompt w o) :
    Yields (fun w' => Prompt w' o) (step fuel w c) := by
  have hcalm := hc.1
  cases c with
  | ipc c =>
      unfold step ipc
      cases c with
      | proceed t => exact proceed_prompt T S hcalm.2 ho H
      | expire | tick => cases ho
      | sendMessage t =>
          obtain rfl := Option.some.inj ho
          simp only [hx]
          refine yields_map fun r hr => ?_
          rcases MessageDeque.reserve_some hr with ⟨e,he,hq⟩ | ⟨msg,he,-,hq,-⟩
          · rw [he,hq]
            exact prompt_change H (by rw [hx])
          · rw [he,hq]
            exact prompt_calm (l := .defunct) H (.keeps (keeps_refl _ t)) rfl (by rw [hx]; rfl)
              (not_onWay (by simp [hcalm.2.1,Place.list]))
      | recvMessage =>
          obtain rfl := Option.some.inj ho
          simp only [hx]
          exact (MessageQueue.recv_receives hcalm.2.2).map fun r hr => prompt_receives hr hx H
      | _ =>
          obtain rfl := Option.some.inj ho
          simp only [hx]
          exact yields_none
  | control =>
      obtain rfl := Option.some.inj ho
      unfold step control
      simp only [hx]
      exact (queue_control_prompt fuel hx H).map fun _ => id
  | _ => cases ho

end own

theorem step_prompt (fuel : ℕ) {c : Call ο θ} (hc : w.Undisturbed c) (T : Typed w) (S : Seated w)
    (H : Prompt w o) : Yields (fun w' => Prompt w' o) (step fuel w c) := by
  by_cases ho : w.target c = some o
  · cases hx : w.object o with
    | mailbox m => exact mailbox_prompt fuel hc T S hx ho H
    | queue q => exact queue_prompt fuel hc T S hx ho H
    | semaphore | mutex | event =>
        intro w' hw' _
        have hkind := (step_touches fuel c w' hw').same_kind o
        rw [hx] at hkind
        cases hx' : w'.object o with
        | mailbox | queue =>
            rw [hx'] at hkind
            cases hkind
        | _ => exact Nat.zero_le _
  · exact prompt_other fuel hc S ho H

/-- In every state of a run in which no wait ends by a timeout, a mailbox or a message queue on
which a thread sleeps holds at most as many messages as there are threads that have been woken
for it and have not run yet. -/
theorem no_message_waits_for_a_sleeper {fuel : ℕ} {cs : List (Call ο θ)}
    (hplace : ∀ t, w.place t = .idle) (hlists : ∀ l : ListId ο, l.IsWait → w.kernel.lists.get l = [])
    (hcs : AllSteps (step fuel) Undisturbed w cs) :
    Throughout (step fuel) (fun w => ∀ o t, (w.place t).list = some (.suspend o) →
      (w.kernel.thread t).stat = .suspend →
      supply (w.object o) ≤ (Finset.univ.filter fun u => (w.place u).list = some (.suspend o) ∧
        (w.kernel.thread u).stat = .ready ∧ (w.kernel.thread u).error = ERR_OK).card) w cs := by
  have hcount : ∀ (w : IdealSystem ο θ) o, count (w.onWay o) =
      (Finset.univ.filter fun u => (w.place u).list = some (.suspend o) ∧
        (w.kernel.thread u).stat = .ready ∧ (w.kernel.thread u).error = ERR_OK).card := by
    intro w o
    simp [count,onWay]
  refine throughout_of_invariant
    (I := fun w : IdealSystem ο θ => Typed w ∧ Seated w ∧ ∀ o, Prompt w o)
    (fun w H o t hp hs => ?_) (fun w c w' H hc h => ?_) ?_ hcs
  · have hmem := ((H.2.1 t).mem (l := .suspend o) trivial).mpr ⟨hs,hp⟩
    rw [← hcount]
    exact H.2.2 o (List.ne_nil_of_mem hmem)
  · obtain ⟨T,S,P⟩ := H
    exact ⟨(step_touches fuel c w' h).typed T,step_seated fuel hc S w' h,
      fun o => step_prompt fuel hc T S (P o) w' h⟩
  · refine ⟨fun t o ho => ?_,fun t => ?_,fun o hne => absurd (hlists (.suspend o) trivial) hne⟩
    · rw [hplace t] at ho
      cases ho
    · have hidle : (w.place t).list = none := by rw [hplace t]; rfl
      rw [hidle]
      exact ⟨fun l hl => by simp [hlists l hl],fun _ h => absurd rfl h⟩

instance (w : IdealSystem ο θ) : ∀ c, Decidable (w.Undisturbed c)
  | .ipc (.expire t) => inferInstanceAs (Decidable (w.Calm _ ∧ (w.place t).list = none))
  | .startup t | .resume t => inferInstanceAs (Decidable (w.Calm _ ∧ w.place t = .idle))
  | .ipc (.take ..) | .ipc (.release ..) | .ipc (.recvEvent ..) | .ipc (.sendEvent ..)
  | .ipc (.sendWait ..) | .ipc (.recvMail ..) | .ipc (.sendMessage ..) | .ipc (.recvMessage ..)
  | .ipc (.proceed _) | .ipc .tick | .sleep _ | .suspend _ | .sleepReturn _ | .exit | .excute
  | .control .. | .start | .changePriority .. | .enterCritical | .exitCritical =>
      inferInstanceAs (Decidable (w.Calm _ ∧ True))

/-- Threads 1 and 2 wait for a message. Thread 3 sends one, takes it itself while thread 1 is on its
way and sends another one, which thread 2 takes. -/
def receivers : List (Call (Fin 5) (Fin 4)) :=
  [.startup 0,.startup 2,.startup 3,.startup 1,.start,.ipc (.recvMessage 1 4 4 (-1)),
    .ipc (.recvMessage 2 4 4 (-1)),.ipc (.sendMessage 3 4 false [5]),.ipc (.proceed 3),
    .ipc (.recvMessage 3 4 4 (-1)),.ipc (.proceed 3),.ipc (.proceed 1),
    .ipc (.sendMessage 3 4 true [6]),.ipc (.proceed 3)]

theorem no_message_waits_for_a_sleeper_receivers :
    (receivers.foldlM (step 4) (fresh.map CheckedLists.lists)).map (fun w =>
      (w.kernel.lists.get (.suspend 4),supply (w.object 4),w.onWay 4 2)) = some ([1],1,true) ∧
    Throughout (step 4) (fun w => ∀ o t, (w.place t).list = some (.suspend o) →
      (w.kernel.thread t).stat = .suspend →
      supply (w.object o) ≤ (Finset.univ.filter fun u => (w.place u).list = some (.suspend o) ∧
        (w.kernel.thread u).stat = .ready ∧ (w.kernel.thread u).error = ERR_OK).card)
      (fresh.map CheckedLists.lists) receivers := by
  have hlists : ∀ o : Fin 5, (fresh.map CheckedLists.lists).kernel.lists.get (.suspend o) = [] ∧
      (fresh.map CheckedLists.lists).kernel.lists.get (.sender o) = [] := by decide +kernel
  refine ⟨by decide +kernel,no_message_waits_for_a_sleeper (fun _ => rfl) (fun l hl => ?_)
    (by decide +kernel)⟩
  cases l with
  | suspend o => exact (hlists o).1
  | sender o => exact (hlists o).2
  | ready | defunct => exact hl.elim

end System

end CosKernel
