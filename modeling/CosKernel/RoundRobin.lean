import CosKernel.SchedulerInvariant
import CosKernel.KernelEffects
import Mathlib

/-!
# Threads of one priority take turns

At the end of its time slice the current thread is erased from its ready list and pushed to the
back of it, on the nodes of the list. The first part is about one list whose links are
consistent, whatever the rest of the kernel looks like. The second part lets the clock run: the
threads of the selected priority spend their slices one after the other, and after one round the
list is in its old order.
-/
namespace CosKernel.IntrusiveList

variable {ι ν τ : Type} {s s' : Store ι ν τ} {l : ι} {p : ν} {xs : List ν}

/-- The links of a list are consistent, and both ends are null. -/
structure WellFormed (s : Store ι ν τ) (l : ι) (xs : List ν) : Prop extends Chained s l xs where
  first : ∀ a ∈ xs.head?, (s.node a).pPrev = none

theorem Path.suffix (ys : List ν) {zs : List ν} (h : Path s (ys++zs)) : Path s zs := by
  induction ys with
  | nil => exact h
  | cons a ys ih => exact ih h.2

/-- A node that comes twice would be followed by two lists of different lengths. -/
theorem Path.nodup (h : Path s xs) : xs.Nodup := by
  induction xs with
  | nil => exact List.nodup_nil
  | cons a xs ih =>
      refine List.nodup_cons.mpr ⟨fun ha => ?_,ih h.2⟩
      obtain ⟨ys,zs,hxs⟩ := List.append_of_mem ha
      have hlong := h.walk (le_refl (a::xs).length)
      have hagain : Path s (a::zs) := Path.suffix (a::ys) (by simpa [hxs] using h)
      have hle : (a::zs).length ≤ (a::xs).length := by
        simp only [hxs,List.length_cons,List.length_append]
        omega
      have hshort := hagain.walk hle
      have heq : a::xs = a::zs := Option.some.inj (hlong.symm.trans hshort)
      have hlength := congrArg List.length heq
      simp only [hxs,List.length_cons,List.length_append] at hlength
      omega

theorem Chained.nodup (h : Chained s l xs) : xs.Nodup := h.path.nodup

variable [DecidableEq ι] [DecidableEq ν]

/-- `erase` writes one `_pPrev`, that of the node after the erased one. -/
theorem erase_pPrev (hs : s.erase l p = some s') {a : ν} (ha : (s.node p).pNext ≠ some a) :
    (s'.node a).pPrev = (s.node a).pPrev := by
  unfold Store.erase at hs
  split_ifs at hs with hhead htail
  · cases hnext : (s.node p).pNext with
    | none =>
        simp only [hnext,Option.some.injEq] at hs
        simp [← hs]
    | some b =>
        have hab : a ≠ b := fun hab => ha (hab ▸ hnext)
        simp only [hnext,Option.some.injEq] at hs
        simp [← hs,Store.setPrev_pPrev,hab]
  · obtain ⟨t,-,rfl⟩ := Option.map_eq_some_iff.mp hs
    simp
  · simp only [Option.bind_eq_bind,Option.bind_eq_some_iff,Option.some.injEq] at hs
    obtain ⟨b,hnext,t,-,rfl⟩ := hs
    have hab : a ≠ b := fun hab => ha (hab ▸ hnext)
    simp [Store.setPrev_pPrev,hab]

theorem erase_head_eq {ys : List ν} (h : Chained s l (p::ys)) : s.erase l p =
    some (match ys with
      | [] => s.setList l {s.list l with pHead := none}
      | b::_ => (s.setList l {s.list l with pHead := some b}).setPrev b none) := by
  have hhead : (s.list l).pHead = some p := h.head
  have hnext : (s.node p).pNext = ys.head? := h.path.1
  cases ys with
  | nil => simp [Store.erase,hhead,hnext]
  | cons b ys => simp [Store.erase,hhead,hnext]

/-- What is left after `erase` is well formed. -/
theorem WellFormed.erase (h : WellFormed s l xs) (hp : p ∈ xs) :
    ∃ s', s.erase l p = some s' ∧ WellFormed s' l (xs.erase p) ∧
      (xs = [p] → s'.node p = s.node p) := by
  have hd := h.nodup
  obtain ⟨s',hs,hchained,-⟩ := h.toChained.erase hd hp
  refine ⟨s',hs,⟨hchained,?_⟩,?_⟩
  · cases xs with
    | nil => simp at hp
    | cons q xs =>
        by_cases hq : q = p
        · subst hq
          rw [erase_head_eq h.toChained] at hs
          rw [List.erase_cons_head]
          cases xs with
          | nil => exact nofun
          | cons b xs => simp [← Option.some.inj hs,Store.setPrev_pPrev]
        · obtain ⟨ys,zs,hxs⟩ := List.append_of_mem (List.mem_of_ne_of_mem (Ne.symm hq) hp)
          have hnext : (s.node p).pNext = zs.head? := by
            have hpath := h.path
            rw [hxs] at hpath
            exact (Path.suffix (q::ys) hpath).1
          have hfar : (s.node p).pNext ≠ some q := by
            intro heq
            refine (List.nodup_cons.mp hd).1 ?_
            rw [hxs]
            exact List.mem_append_right _ (.tail _ (List.mem_of_mem_head? (hnext ▸ heq)))
          rw [List.erase_cons_tail (by simpa using hq)]
          intro a ha
          obtain rfl : q = a := by simpa using ha
          rw [erase_pPrev hs hfar]
          exact h.first q rfl
  · rintro rfl
    rw [erase_head_eq h.toChained] at hs
    simp [← Option.some.inj hs]

/-- A node that is erased and pushed to the back again. -/
theorem WellFormed.rotate (h : WellFormed s l xs) (hp : p ∈ xs) :
    ∃ s₁ s₂, s.erase l p = some s₁ ∧ s₁.pushBack l p = some s₂ ∧
      WellFormed s₂ l (xs.erase p++[p]) := by
  have hd := h.nodup
  obtain ⟨s₁,hs₁,hleft,halone⟩ := h.erase hp
  refine ⟨s₁,?_⟩
  have hout : p ∉ xs.erase p := fun hmem => ((hd.mem_erase_iff).mp hmem).1 rfl
  rcases List.eq_nil_or_concat (xs.erase p) with hempty | ⟨ys,t,hlast⟩
  · have hxs : xs = [p] := by
      rw [List.erase_eq_nil_iff,or_iff_right (List.ne_nil_of_mem hp)] at hempty
      exact hempty
    have hhead : (s₁.list l).pHead = none := by rw [hleft.head,hempty]; rfl
    refine ⟨_,hs₁,pushBack_of_empty hhead,?_⟩
    rw [hempty]
    have hsame := halone hxs
    have hnext : (s.node p).pNext = none := h.last p (by simp [hxs])
    have hprev : (s.node p).pPrev = none := h.first p (by simp [hxs])
    refine ⟨⟨by simp,fun _ => by simp,List.isChain_singleton p,?_⟩,?_⟩
    · simp [hsame,hnext]
    · simp [hsame,hprev]
  · rw [List.concat_eq_append] at hlast
    refine ⟨_,hs₁,pushBack_of_last (f := fun _ => xs.erase p) hleft.toChained hlast hout,
      appended_chained (f := fun _ => xs.erase p) hleft.toChained (hd.erase p) hlast hout,?_⟩
    intro a ha
    have hmem : a ∈ (xs.erase p).head? := by
      rw [hlast] at ha ⊢
      cases ys <;> simpa using ha
    have hap : a ≠ p := by
      rintro rfl
      exact hout (List.mem_of_mem_head? hmem)
    simp only [appended,Store.setList_node,Store.setNext_pPrev,Store.setPrev_pPrev,hap,ite_false]
    exact hleft.first a hmem

end CosKernel.IntrusiveList

namespace CosKernel.RoundRobin
open IntrusiveList TransitionRuns

section kernel

variable {σ ο θ : Type} [DecidableEq θ] [ListFamily σ (ListId ο) θ]

/-- A number of calls of `Scheduler::inclock`. -/
def ticks (ο : Type) [ListFamily σ (ListId ο) θ] : ℕ → Kernel σ θ → Option (Kernel σ θ)
  | 0,k => some k
  | n+1,k => do
      let k ← k.inclock (ο := ο)
      ticks ο n k

/-- The clock runs until the slice of the current thread is over. -/
def slice (ο : Type) [ListFamily σ (ListId ο) θ] (k : Kernel σ θ) : Option (Kernel σ θ) := do
  let c ← k.currentThread
  ticks ο (k.thread c).remainingTick.toNat k

/-- The threads whose slices expire one after the other. -/
def expiries (ο : Type) [ListFamily σ (ListId ο) θ] : ℕ → Kernel σ θ →
    Option (List θ × Kernel σ θ)
  | 0,k => some ([],k)
  | n+1,k => do
      let c ← k.currentThread
      let k ← slice ο k
      let (cs,k) ← expiries ο n k
      some (c::cs,k)

/-- The slice of the thread starts again. -/
def renewed (k : Kernel σ θ) (c : θ) : Kernel σ θ :=
  k.modify c fun x => {x with remainingTick := x.initTick}

variable {k : Kernel σ θ} {c : θ}

theorem inclock_running (hc : k.currentThread = some c)
    (hremaining : (k.thread c).remainingTick ≠ 1) :
    k.inclock (ο := ο) =
      some (k.modify c fun x => {x with remainingTick := x.remainingTick-1}) := by
  have hne : (k.thread c).remainingTick-1 ≠ 0 := fun h => hremaining (sub_eq_zero.mp h)
  simp only [Kernel.inclock,hc,Kernel.modify_thread_self]
  rw [if_pos hne]

theorem inclock_expired {s₁ s₂ : σ} (hc : k.currentThread = some c)
    (hready : (k.thread c).stat = .ready) (hremaining : (k.thread c).remainingTick = 1)
    (he : ListFamily.erase k.lists (ListId.ready (ο := ο) (k.thread c).currentPriority) c = some s₁)
    (hp : ListFamily.pushBack s₁ (ListId.ready (ο := ο) (k.thread c).currentPriority) c = some s₂) :
    k.inclock (ο := ο) = Kernel.process (ο := ο) {renewed k c with lists := s₂} := by
  simp only [Kernel.inclock,hc,Kernel.modify_thread_self,Kernel.modify_modify,hremaining,sub_self,
    ne_eq,not_true_eq_false,ite_false,hready]
  rw [show ((k.modify c _).lists) = k.lists from rfl,he]
  simp only [Option.bind_eq_bind,Option.bind_some,hp]
  rfl

/-- A change of one thread that keeps a field keeps it in all threads. -/
theorem modify_keeps {β : Type} (field : Thread → β) {g : Thread → Thread}
    (hg : ∀ x, field (g x) = field x) (t : θ) :
    field ((k.modify c g).thread t) = field (k.thread t) := by
  by_cases ht : t = c
  · subst ht
    rw [Kernel.modify_thread_self,hg]
  · simp only [Kernel.modify,Function.update_of_ne ht]

/-- Without a lock the selected thread becomes the current one. -/
theorem process_selects {u : θ} (hlock : k.lockNest = 0)
    (hnext : k.nextThread (ο := ο) = some (some u)) (hc : k.currentThread = some c) :
    k.process (ο := ο) = some {k with currentThread := some u} := by
  by_cases hu : u = c
  · subst hu
    have hsame : {k with currentThread := some u} = k := by rw [← hc]
    rw [hsame]
    simp [Kernel.process,hlock,hnext,hc]
  · simp [Kernel.process,hlock,hnext,hc,hu]

end kernel

variable {ο θ : Type}

/-- The threads of the selected priority, the current one first. -/
structure Turn (k : PointerKernel ο θ) (p : Priority) (f : ListId ο → List θ) : Prop where
  queues : ReadyQueues k.lists k.priorityTree f
  least : ∀ q < p, f (.ready q) = []
  nonempty : f (.ready p) ≠ []
  current : k.currentThread = (f (.ready p)).head?
  unlocked : k.lockNest = 0
  ready : ∀ t ∈ f (.ready p), ((k.thread t).stat,(k.thread t).currentPriority) = (.ready,p)
  slices : ∀ t ∈ f (.ready p), (k.thread t).remainingTick ≠ 0 ∧ (k.thread t).initTick ≠ 0

namespace Turn

variable [DecidableEq θ]
variable {k : PointerKernel ο θ} {p : Priority} {f : ListId ο → List θ} {c : θ} {us : List θ}

/-- A tick within the slice. -/
theorem running (H : Turn k p f) (hremaining : (k.thread c).remainingTick ≠ 1) :
    Turn (k.modify c fun x => {x with remainingTick := x.remainingTick-1}) p f := by
  refine ⟨H.queues,H.least,H.nonempty,H.current,H.unlocked,fun t ht => ?_,fun t ht => ?_⟩
  · rw [← H.ready t ht]
    apply modify_keeps fun x => (x.stat,x.currentPriority)
    exact fun _ => rfl
  · by_cases htc : t = c
    · subst htc
      rw [Kernel.modify_thread_self]
      exact ⟨fun h => hremaining (sub_eq_zero.mp h),(H.slices t ht).2⟩
    · simp only [Kernel.modify,Function.update_of_ne htc]
      exact H.slices t ht

theorem renewed_ready (H : Turn k p f) (t : θ) (ht : t ∈ f (.ready p)) :
    (((renewed k c).thread t).stat,((renewed k c).thread t).currentPriority) = (.ready,p) := by
  rw [← H.ready t ht]
  apply modify_keeps fun x => (x.stat,x.currentPriority)
  exact fun _ => rfl

theorem renewed_slices (H : Turn k p f) (t : θ) (ht : t ∈ f (.ready p)) :
    ((renewed k c).thread t).remainingTick ≠ 0 ∧ ((renewed k c).thread t).initTick ≠ 0 := by
  obtain ⟨hremaining,hinit⟩ := H.slices t ht
  by_cases htc : t = c
  · subst htc
    rw [renewed,Kernel.modify_thread_self]
    exact ⟨hinit,hinit⟩
  · simp only [renewed,Kernel.modify,Function.update_of_ne htc]
    exact ⟨hremaining,hinit⟩

variable [DecidableEq ο]

/-- The last tick of the slice. -/
theorem expired (H : Turn k p f) (hf : f (.ready p) = c::us)
    (hremaining : (k.thread c).remainingTick = 1) :
    ∃ k', k.inclock (ο := ο) = some k' ∧
      Turn k' p (Function.update f (.ready p) (us++[c])) := by
  have hmem : c ∈ f (.ready p) := by simp [hf]
  have hc : k.currentThread = some c := by rw [H.current,hf]; rfl
  obtain ⟨hready,hp⟩ := Prod.mk.inj (H.ready c hmem)
  obtain ⟨s₁,s₂,he,hpush,hqueues⟩ := H.queues.rotate hmem
  have hmoved : moved f (.ready p) (.ready p) c = Function.update f (.ready p) (us++[c]) := by
    simp [moved,sequenceCall,hf]
  have hsame : ∀ t ∈ us++[c], t ∈ f (.ready p) := by
    intro t ht
    simpa [hf,or_comm] using ht
  rw [hmoved] at hqueues
  have hleast : ∀ q < p, Function.update f (.ready p) (us++[c]) (.ready q) = [] := by
    intro q hq
    rw [Function.update_of_ne (by simpa using hq.ne)]
    exact H.least q hq
  obtain ⟨u,vs,hfirst⟩ := List.exists_cons_of_ne_nil (show us++[c] ≠ [] by simp)
  have hnext : Kernel.nextThread (ο := ο) {renewed k c with lists := s₂} = some (some u) := by
    rw [nextThread_spec (p := p) hqueues (by simp) hleast]
    simp [hfirst]
  refine ⟨{renewed k c with lists := s₂, currentThread := some u},?_,hqueues,hleast,by simp,
    by simp [hfirst],H.unlocked,fun t ht => ?_,fun t ht => ?_⟩
  · rw [inclock_expired hc hready hremaining (hp ▸ he) (hp ▸ hpush)]
    exact process_selects H.unlocked hnext hc
  · rw [Function.update_self] at ht
    exact H.renewed_ready t (hsame t ht)
  · rw [Function.update_self] at ht
    exact H.renewed_slices t (hsame t ht)

/-- The current thread spends its slice. -/
theorem ticks {n : ℕ} (H : Turn k p f) (hf : f (.ready p) = c::us)
    (hn : (k.thread c).remainingTick.toNat = n+1) :
    ∃ k', RoundRobin.ticks ο (n+1) k = some k' ∧
      Turn k' p (Function.update f (.ready p) (us++[c])) := by
  have hc : k.currentThread = some c := by rw [H.current,hf]; rfl
  induction n generalizing k with
  | zero =>
      obtain ⟨k',hk',H'⟩ := H.expired hf (BitVec.eq_of_toNat_eq hn)
      exact ⟨k',by rw [RoundRobin.ticks,hk']; rfl,H'⟩
  | succ n ih =>
      have hne : (k.thread c).remainingTick ≠ 1 := by
        intro h
        simp [h] at hn
      have hless : ((k.thread c).remainingTick-1).toNat = n+1 := by
        rw [BitVec.toNat_sub_of_le (by rw [BitVec.le_def,hn]; simp),hn]
        rfl
      obtain ⟨k',hk',H'⟩ := ih (H.running hne) (by simpa using hless) hc
      exact ⟨k',by rw [RoundRobin.ticks,inclock_running hc hne]; exact hk',H'⟩

theorem slice (H : Turn k p f) (hf : f (.ready p) = c::us) :
    ∃ k', RoundRobin.slice ο k = some k' ∧
      Turn k' p (Function.update f (.ready p) (us++[c])) := by
  have hc : k.currentThread = some c := by rw [H.current,hf]; rfl
  have hpos : (k.thread c).remainingTick.toNat ≠ 0 := fun h =>
    (H.slices c (by simp [hf])).1 (BitVec.eq_of_toNat_eq h)
  obtain ⟨n,hn⟩ := Nat.exists_eq_succ_of_ne_zero hpos
  obtain ⟨k',hk',H'⟩ := H.ticks hf hn
  refine ⟨k',?_,H'⟩
  simp only [RoundRobin.slice,hc,Option.bind_eq_bind,Option.bind_some,hn]
  exact hk'

/-- The first threads of the list run and go to its end in the same order. -/
theorem expiries {vs : List θ} (H : Turn k p f) (hf : f (.ready p) = us++vs) :
    ∃ k', RoundRobin.expiries ο us.length k = some (us,k') ∧
      Turn k' p (Function.update f (.ready p) (vs++us)) := by
  induction us generalizing k f vs with
  | nil =>
      refine ⟨k,rfl,?_⟩
      rw [List.append_nil,show vs = f (.ready p) from hf.symm,Function.update_eq_self]
      exact H
  | cons c us ih =>
      have hc : k.currentThread = some c := by rw [H.current,hf]; rfl
      obtain ⟨k₁,hk₁,H₁⟩ := H.slice (c := c) hf
      have hf₁ : Function.update f (.ready p) (us++vs++[c]) (.ready p) = us++(vs++[c]) := by simp
      obtain ⟨k',hk',H'⟩ := ih H₁ hf₁
      rw [Function.update_idem] at H'
      refine ⟨k',?_,by simpa using H'⟩
      simp only [List.length_cons,RoundRobin.expiries,hc,hk₁,hk',Option.bind_eq_bind,
        Option.bind_some]

end Turn

variable [DecidableEq ο] [DecidableEq θ]

/-- In a state that the scheduler reaches, once the selected thread is the current one. -/
theorem Turn.of_invariant {idle c : θ} {D E : List θ} {k : PointerKernel ο θ}
    {f : ListId ο → List θ} (H : Scheduler.Invariant idle D E k f)
    (hc : k.currentThread = some c) (hnext : k.nextThread (ο := ο) = some (some c))
    (hlock : k.lockNest = 0) (hslices : ∀ t, (k.thread t).stat = .ready →
      (k.thread t).remainingTick ≠ 0 ∧ (k.thread t).initTick ≠ 0) :
    Turn k (k.thread c).currentPriority f := by
  obtain ⟨r,vs,hr⟩ := head_of_nextThread H.queues hnext
  obtain ⟨q,hq,hmin⟩ := wellFounded_lt.has_min {q | f (.ready q) ≠ []} ⟨r,by simp [hr]⟩
  have hless : ∀ p < q, f (.ready p) = [] := fun p hp => by_contra fun hne => hmin p hne hp
  have hhead : (f (.ready q)).head? = some c := by
    rw [nextThread_spec H.queues hq hless] at hnext
    exact Option.some.inj hnext
  obtain ⟨-,hprio⟩ := (H.ready c q).mp (List.mem_of_mem_head? hhead)
  subst hprio
  refine ⟨H.queues,hless,hq,hc.trans hhead.symm,hlock,fun t ht => ?_,fun t ht => ?_⟩
  · obtain ⟨hready,hp⟩ := (H.ready t _).mp ht
    rw [hready,hp]
  · exact hslices t ((H.ready t _).mp ht).1

/-- Every run of legal and clean calls ends in such a state. -/
theorem invariant_reached (idle : θ) {k : PointerKernel ο θ} {calls : List (Scheduler.Call θ)}
    (hinit : Scheduler.Initialized k)
    (hlegal : AllSteps Scheduler.call (Scheduler.Legal idle) k calls)
    (hclean : AllSteps Scheduler.call Scheduler.Clean k calls) :
    ∃ k', calls.foldlM Scheduler.call k = some k' ∧ ∃ f, Scheduler.Invariant idle [] [] k' f :=
  Always.last (always_of_invariant (I := fun k => ∃ f, Scheduler.Invariant idle [] [] k f)
    (fun _ h => h)
    (fun k c ⟨_,H⟩ h => by
      obtain ⟨k',f',e,H'⟩ := H.call h.1 h.2
      exact ⟨k',e,f',H'⟩)
    ⟨_,hinit.invariant idle⟩ (hlegal.and hclean))

/-- At the end of its slice the current thread goes to the end of its list, wherever it was. In one
round the selected threads run once each, and the round ends as it began. -/
theorem expired_thread_goes_last :
    (∀ (k : PointerKernel ο θ) (c : θ) (xs : List θ), k.currentThread = some c →
      (k.thread c).stat = .ready → (k.thread c).remainingTick = 1 →
      WellFormed k.lists (.ready (k.thread c).currentPriority) xs → c ∈ xs →
      ∃ s, WellFormed s (.ready (k.thread c).currentPriority) (xs.erase c++[c]) ∧
        k.inclock (ο := ο) = Kernel.process (ο := ο) {renewed k c with lists := s} ∧
        ∀ k', k.inclock (ο := ο) = some k' → k'.lists = s ∧ k'.thread = (renewed k c).thread) ∧
    (∀ (k : PointerKernel ο θ) (p : Priority) (f : ListId ο → List θ), Turn k p f →
      (f (.ready p)).Nodup ∧ ∃ k', expiries ο (f (.ready p)).length k = some (f (.ready p),k') ∧
        Turn k' p f) := by
  constructor
  · intro k c xs hc hready hremaining hwf hmem
    obtain ⟨s₁,s₂,he,hp,hwf'⟩ := hwf.rotate hmem
    have hinclock := inclock_expired (ο := ο) hc hready hremaining he hp
    refine ⟨s₂,hwf',hinclock,fun k' hk' => ?_⟩
    rw [hinclock] at hk'
    obtain ⟨_,rfl⟩ := Kernel.process_some hk'
    exact ⟨rfl,rfl⟩
  · intro k p f H
    have hf : f (.ready p) = f (.ready p)++[] := (List.append_nil _).symm
    obtain ⟨k',hk',H'⟩ := H.expiries hf
    rw [List.nil_append,Function.update_eq_self] at H'
    exact ⟨H.queues.lists.nodup _,k',hk',H'⟩

/-- Two threads of one priority, and the first one is at the last tick of its slice. -/
def lastTick : List (Scheduler.Call (Fin 3)) :=
  [.startup 0,.startup 1,.startup 2,.start]++List.replicate 9 .inclock

/-- What the witness needs to know of the state after a run. -/
def Ends (k : PointerKernel Empty (Fin 3)) : Prop :=
  k.currentThread = some 1 ∧ k.nextThread (ο := Empty) = some (some 1) ∧ k.lockNest = 0 ∧
    (k.thread 1).stat = .ready ∧ (k.thread 1).currentPriority = 10 ∧
    (k.thread 1).remainingTick = 1 ∧
    (∀ t, (k.thread t).remainingTick ≠ 0 ∧ (k.thread t).initTick ≠ 0) ∧
    k.lists.walk 3 (k.lists.list (.ready 10)).pHead = some [1,2] ∧
    (k.lists.node 1).pPrev = none
deriving Decidable

theorem expired_thread_goes_last_lastTick :
    ∃ k, lastTick.foldlM Scheduler.call Scheduler.threeThreads = some k ∧
      (∃ s, WellFormed s (.ready 10) [2,1] ∧
        k.inclock (ο := Empty) = Kernel.process (ο := Empty) {renewed k 1 with lists := s}) ∧
      ∃ k', expiries Empty 2 k = some ([1,2],k') := by
  have hlegal : AllSteps Scheduler.call (Scheduler.Legal 0) Scheduler.threeThreads lastTick := by
    decide +kernel
  have hclean : AllSteps Scheduler.call Scheduler.Clean Scheduler.threeThreads lastTick := by
    decide +kernel
  have hinit : Scheduler.Initialized Scheduler.threeThreads := Scheduler.freshKernel_initialized _
  obtain ⟨k,hk,f,H⟩ := invariant_reached 0 hinit hlegal hclean
  have hends : ((lastTick.foldlM Scheduler.call Scheduler.threeThreads).map fun k =>
      decide (Ends k)) = some true := by
    decide +kernel
  rw [hk,Option.map_some,Option.some.injEq,decide_eq_true_eq] at hends
  obtain ⟨hc,hnext,hlock,hready,hprio,hremaining,hslices,hwalk,hfirst⟩ := hends
  have hturn := Turn.of_invariant H hc hnext hlock fun t _ => hslices t
  have hchained := H.queues.lists.chained (.ready 10)
  have hlist : f (.ready 10) = [1,2] := by
    have hlength : (f (.ready 10)).length ≤ 3 :=
      (H.queues.lists.nodup _).length_le_card.trans_eq (Fintype.card_fin 3)
    rw [hchained.head,hchained.path.walk hlength] at hwalk
    exact Option.some.inj hwalk
  rw [hlist] at hchained
  obtain ⟨hone,hround⟩ := expired_thread_goes_last (ο := Empty) (θ := Fin 3)
  obtain ⟨s,hs,hinclock,-⟩ := hone k 1 [1,2] hc hready hremaining
    (hprio ▸ ⟨hchained,by simpa using hfirst⟩) (by decide)
  obtain ⟨-,k',hk',-⟩ := hround k 10 f (hprio ▸ hturn)
  rw [hlist] at hk'
  exact ⟨k,hk,⟨s,hprio ▸ hs,hinclock⟩,k',hk'⟩

end CosKernel.RoundRobin
