import CosKernel.TimerExpiry
import CosKernel.TransitionRuns

/-!
# When timeout functions are called

A history records when timers were started, stopped and called, with the number of
ticks that have gone by as a natural number; the tick counter of the kernel is that
number and an initial tick modulo 2^32. Every call of a timeout function is justified:
the last thing that happened to the timer before was a start, at least as many ticks
ago as its time was then.
-/
namespace CosKernel.TimerHistory
open TransitionRuns TimerExpiry

inductive Event (τ : Type) where
  | started (t : τ) (time init : ℕ)
  | stopped (t : τ)
  | called (t : τ) (time : ℕ)
  deriving DecidableEq, Repr

def Event.timer {τ : Type} : Event τ → τ
  | .started t _ _ | .stopped t | .called t _ => t

/-- The clock, the ticks that have gone by, and the events, the latest one first. -/
structure World (τ : Type) where
  clock : BagClock τ
  time : ℕ
  history : List (Event τ)

variable {τ : Type} [DecidableEq τ]

/-- The events of a call that leads from the clock `s` to the clock `s'`. -/
def record (s s' : BagClock τ) (time : ℕ) : Clock.Call τ → List (Event τ)
  | .start t => [.started t time (s.timer t).initTick.toNat]
  | .stop t => [.stopped t]
  | .round =>
      match s'.phase with
      | .callback t => [.called t time]
      | _ => []
  | .callbackReturn =>
      match s.phase with
      | .callback t =>
          if (s.timer t).periodic && (s.timer t).activated then
            [.started t time (s.timer t).initTick.toNat]
          else []
      | _ => []
  | _ => []

def call (w : World τ) (c : Clock.Call τ) : Option (World τ) := do
  let s ← w.clock.call c
  some ⟨s,if c = .tickIncrease then w.time+1 else w.time,record w.clock s w.time c++w.history⟩

/-- Calls of `start`, `stop` and `control` between the ticks, and ticks whose timeout
functions do not use timers. -/
def Legal (w : World τ) : Clock.Call τ → Prop
  | .construct _ _ _ | .detach _ => False
  | .start _ | .stop _ | .control _ _ | .tickIncrease => w.clock.phase = .outside
  | .round => w.clock.phase = .checking
  | .callbackReturn => ∃ t, w.clock.phase = .callback t

/-- The latest event of the timer `t`. -/
def latest (t : τ) (h : List (Event τ)) : Option (Event τ) := h.find? fun e => e.timer = t

/-- The timer was started, and since then neither stopped nor called, and at least
as many ticks have gone by as its time was at the start. -/
def Expired (h : List (Event τ)) (t : τ) (time : ℕ) : Prop :=
  ∃ n i, latest t h = some (.started t n i) ∧ n+i ≤ time

/-- Every call of a timeout function is justified by what happened before it. -/
def Justified : List (Event τ) → Prop
  | [] => True
  | .called t time::h => Expired h t time ∧ Justified h
  | _::h => Justified h

/-- No timer is active. -/
structure Start (w : World τ) : Prop where
  tree : w.clock.tree.items = []
  active : ∀ t, (w.clock.timer t).activated = false
  phase : w.clock.phase = .outside
  time : w.time = 0
  history : w.history = []

/-- A timer in the tree was started, and its expiry is that of this start. -/
def Pending (base : BitVec 32) (w : World τ) (t : τ) : Prop :=
  ∃ n i, latest t w.history = some (.started t n i) ∧ n ≤ w.time ∧ i < TICK_MAX/2 ∧
    (w.clock.timer t).timeoutTick = base+BitVec.ofNat 32 n+BitVec.ofNat 32 i

/-- What is kept for all timers that satisfy `Z`; `base` is the tick at the start. -/
structure Kept (base : BitVec 32) (Z : τ → Prop) (w : World τ) : Prop where
  tick : w.clock.tick = base+BitVec.ofNat 32 w.time
  nodup : w.clock.tree.items.Nodup
  pending : ∀ t, Z t → t ∈ w.clock.tree.items → Pending base w t
  active : ∀ t, Z t → ((w.clock.timer t).activated = true ↔ t ∈ w.clock.tree.items)
  justified : Justified w.history

/-- Of the timer whose timeout function is running only its absence is known. -/
structure Invariant (base : BitVec 32) (w : World τ) : Prop where
  kept : Kept base (fun t => w.clock.phase ≠ .callback t) w
  running : ∀ t, w.clock.phase = .callback t → t ∉ w.clock.tree.items

variable {w w' : World τ} {base : BitVec 32} {t : τ} {Z : τ → Prop}

theorem Start.invariant (h : Start w) : Invariant w.clock.tick w where
  kept :=
    ⟨by simp [h.time],by simp [h.tree],fun t _ ht => by simp [h.tree] at ht,
      fun t _ => by simp [h.tree,h.active],by simp [h.history,Justified]⟩
  running t _ := by simp [h.tree]

/-- Due timers have expired, whatever the position of the counter. -/
theorem expired_of_due {T : BitVec 32} {time n i : ℕ} (hn : n ≤ time) (hi : i < TICK_MAX/2)
    (hdue : (T+BitVec.ofNat 32 time-(T+BitVec.ofNat 32 n+BitVec.ofNat 32 i)).toNat < TICK_MAX/2) :
    n+i ≤ time := by
  by_contra hlt
  simp only [BitVec.toNat_sub,BitVec.toNat_add,BitVec.toNat_ofNat,TICK_MAX] at hdue hi
  omega

theorem latest_cons_of_ne {e : Event τ} {h : List (Event τ)} (he : e.timer ≠ t) :
    latest t (e::h) = latest t h := by simp [latest,he]

theorem latest_cons_self {e : Event τ} {h : List (Event τ)} (he : e.timer = t) :
    latest t (e::h) = some e := by simp [latest,he]

/-- The timers other than `t` are left alone. -/
structure Others (w w' : World τ) (t : τ) : Prop where
  tick : w'.clock.tick = w.clock.tick
  time : w'.time = w.time
  items : ∀ u, u ≠ t → (u ∈ w'.clock.tree.items ↔ u ∈ w.clock.tree.items)
  timer : ∀ u, u ≠ t → w'.clock.timer u = w.clock.timer u
  latest : ∀ u, u ≠ t → latest u w'.history = latest u w.history

/-- A step that concerns only `t` keeps what is known of the other timers. -/
theorem Kept.others (H : Kept base Z w) (h : Others w w' t) (hnodup : w'.clock.tree.items.Nodup)
    (hj : Justified w'.history)
    {Y : τ → Prop} (hY : ∀ u, u ≠ t → Y u → Z u)
    (ht : Y t → (t ∈ w'.clock.tree.items → Pending base w' t) ∧
      ((w'.clock.timer t).activated = true ↔ t ∈ w'.clock.tree.items)) : Kept base Y w' := by
  refine ⟨by rw [h.tick,h.time,H.tick],hnodup,fun u hu hmem => ?_,fun u hu => ?_,hj⟩
  · by_cases hut : u = t
    · subst hut; exact (ht hu).1 hmem
    · obtain ⟨n,i,hl,hn,hi,htick⟩ := H.pending u (hY u hut hu) ((h.items u hut).mp hmem)
      exact ⟨n,i,by rw [h.latest u hut,hl],by rw [h.time]; exact hn,hi,by rw [h.timer u hut,htick]⟩
  · by_cases hut : u = t
    · subst hut; exact (ht hu).2
    · rw [h.timer u hut,h.items u hut]
      exact H.active u (hY u hut hu)

/-- `t` is started now. -/
theorem Kept.start (H : Kept base Z w) {s : BagClock τ} (hs : w.clock.start t = some s)
    {Y : τ → Prop} (hY : ∀ u, u ≠ t → Y u → Z u) :
    Kept base Y ⟨s,w.time,.started t w.time (w.clock.timer t).initTick.toNat::w.history⟩ := by
  rw [start_eq] at hs
  split_ifs at hs with hinit
  obtain rfl := Option.some.inj hs
  have hmem : ∀ u, u ∈ (started w.clock t).tree.items ↔ u = t ∨ u ∈ w.clock.tree.items.erase t :=
    fun u => OrderedBag.mem_place
  have hothers : Others w ⟨started w.clock t,w.time,
      .started t w.time (w.clock.timer t).initTick.toNat::w.history⟩ t :=
    ⟨rfl,rfl,fun u hu => by rw [hmem]; simp [hu,List.mem_erase_of_ne hu],
      fun u hu => by simp [started,hu],fun u hu => latest_cons_of_ne fun h => hu h.symm⟩
  refine H.others hothers ?_ H.justified hY fun _ => ⟨fun _ => ?_,?_⟩
  · exact OrderedBag.place_perm.nodup_iff.mpr (List.nodup_cons.mpr
      ⟨H.nodup.not_mem_erase,H.nodup.erase t⟩)
  · refine ⟨w.time,(w.clock.timer t).initTick.toNat,latest_cons_self rfl,le_rfl,hinit,?_⟩
    simp [started,Timer.activate,H.tick]
  · simp only [hmem,true_or,iff_true]
    simp [started]

/-- `t` is not in the tree any more and not active. -/
theorem Kept.leave (H : Kept base Z w) (h : Others w w' t) {Y : τ → Prop}
    (hY : ∀ u, u ≠ t → Y u → Z u) (hsub : w'.clock.tree.items.Sublist w.clock.tree.items)
    (hj : Justified w'.history) (hmem : t ∉ w'.clock.tree.items)
    (hactive : Y t → (w'.clock.timer t).activated = false) : Kept base Y w' :=
  H.others h (H.nodup.sublist hsub) hj hY fun ht =>
    ⟨fun hm => absurd hm hmem,by simp [hmem,hactive ht]⟩

/-- Outside of timeout functions everything is known of all timers. -/
theorem Invariant.all (H : Invariant base w) (hp : ∀ t, w.clock.phase ≠ .callback t) :
    Kept base (fun _ => True) w :=
  ⟨H.kept.tick,H.kept.nodup,fun t _ => H.kept.pending t (hp t),fun t _ => H.kept.active t (hp t),
    H.kept.justified⟩

theorem Kept.invariant (H : Kept base (fun _ => True) w) (hp : ∀ t, w.clock.phase ≠ .callback t) :
    Invariant base w :=
  ⟨⟨H.tick,H.nodup,fun t _ => H.pending t trivial,fun t _ => H.active t trivial,H.justified⟩,
    fun t ht => absurd ht (hp t)⟩

theorem Kept.stop (H : Kept base (fun _ => True) w) {s : BagClock τ}
    (hs : (w.clock.stop t).map Prod.fst = some s) :
    Kept base (fun _ => True) ⟨s,w.time,.stopped t::w.history⟩ := by
  unfold Clock.stop at hs
  split_ifs at hs with hact
  · simp only [TimerTree.remove,Option.bind_eq_bind,Option.bind_some,Option.map_some,
      Option.some.injEq] at hs
    subst hs
    have hothers : Others w ⟨({w.clock with tree := w.clock.tree.remove t} : BagClock τ).modify t
        Timer.deactivate,w.time,.stopped t::w.history⟩ t :=
      ⟨rfl,rfl,fun u hu => List.mem_erase_of_ne hu,fun u hu => by simp [Clock.modify,hu],
        fun u hu => latest_cons_of_ne fun h => hu h.symm⟩
    exact H.leave hothers (fun _ _ => id) List.erase_sublist H.justified H.nodup.not_mem_erase
      fun _ => by simp [Clock.modify]
  · obtain rfl := Option.some.inj hs
    have habsent : t ∉ w.clock.tree.items := fun h => hact ((H.active t trivial).mpr h)
    have hothers : Others w ⟨w.clock,w.time,.stopped t::w.history⟩ t :=
      ⟨rfl,rfl,fun _ _ => Iff.rfl,fun _ _ => rfl,fun u hu =>
        latest_cons_of_ne fun h => hu h.symm⟩
    exact H.leave hothers (fun _ _ => id) (.refl _) H.justified habsent fun _ => by simpa using hact

theorem stop_phase {s s' : BagClock τ} (hs : (s.stop t).map Prod.fst = some s') :
    s'.phase = s.phase := by
  unfold Clock.stop at hs
  split_ifs at hs
  · simp only [TimerTree.remove,Option.bind_eq_bind,Option.bind_some,Option.map_some,
      Option.some.injEq] at hs
    subst hs
    rfl
  · obtain rfl := Option.some.inj hs
    rfl

theorem Kept.control (H : Kept base (fun _ => True) w) (c : Timer.Control) :
    Kept base (fun _ => True) {w with clock := w.clock.control t c} := by
  have hothers : Others w {w with clock := w.clock.control t c} t :=
    ⟨rfl,rfl,fun _ _ => Iff.rfl,fun u hu => by simp [Clock.control,Clock.modify,hu],
      fun _ _ => rfl⟩
  refine H.others hothers H.nodup H.justified (fun _ _ => id) fun _ => ⟨fun hm => ?_,?_⟩
  · obtain ⟨n,i,hl,hn,hi,htick⟩ := H.pending t trivial hm
    exact ⟨n,i,hl,hn,hi,by simpa [Clock.control,Clock.modify] using htick⟩
  · simpa [Clock.control,Clock.modify] using H.active t trivial

theorem Kept.tickIncrease (H : Kept base (fun _ => True) w) :
    Kept base (fun _ => True) ⟨w.clock.tickIncrease,w.time+1,w.history⟩ := by
  refine ⟨?_,H.nodup,fun t _ ht => ?_,H.active,H.justified⟩
  · simp only [Clock.tickIncrease,H.tick]
    rw [BitVec.add_assoc,BitVec.ofNat_add]
    rfl
  · obtain ⟨n,i,hl,hn,hi,htick⟩ := H.pending t trivial ht
    exact ⟨n,i,hl,by dsimp only; omega,hi,htick⟩

/-- The timeout function of the first timer is called. -/
theorem Kept.fire (H : Kept base (fun _ => True) w) {rest : List τ}
    (hi : w.clock.tree.items = t::rest) (hd : w.clock.due t = true) :
    Invariant base ⟨{w.clock with
      tree := {w.clock.tree with items := rest}, phase := .callback t},w.time,
      .called t w.time::w.history⟩ := by
  have ht : t ∉ rest := (List.nodup_cons.mp (hi ▸ H.nodup)).1
  have hexpired : Expired w.history t w.time := by
    obtain ⟨n,i,hl,hn,hi,htick⟩ := H.pending t trivial (by simp [hi])
    refine ⟨n,i,hl,expired_of_due (T := base) hn hi ?_⟩
    rw [← H.tick,← htick]
    simpa [Clock.due] using hd
  have hothers : Others w ⟨{w.clock with
      tree := {w.clock.tree with items := rest}, phase := .callback t},w.time,
      .called t w.time::w.history⟩ t :=
    ⟨rfl,rfl,fun u hu => by simp [hi,hu],fun _ _ => rfl,fun u hu =>
      latest_cons_of_ne fun h => hu h.symm⟩
  refine ⟨H.leave hothers (fun _ _ _ => trivial) ?_ ⟨hexpired,H.justified⟩ ht
    fun h => absurd rfl h,?_⟩
  · rw [hi]
    exact List.sublist_cons_self t rest
  · rintro u hu
    obtain rfl : t = u := by simpa using hu
    exact ht

theorem Invariant.round (H : Kept base (fun _ => True) w) {s : BagClock τ}
    (hs : w.clock.round = some s) :
    Invariant base ⟨s,w.time,record w.clock s w.time .round++w.history⟩ := by
  have hquiet : Invariant base ⟨{w.clock with phase := .outside},w.time,w.history⟩ :=
    Kept.invariant ⟨H.tick,H.nodup,H.pending,H.active,H.justified⟩ (by simp)
  cases hi : w.clock.tree.items with
  | nil =>
      rw [round_empty hi] at hs
      obtain rfl := Option.some.inj hs
      exact hquiet
  | cons a rest =>
      cases hd : w.clock.due a with
      | false =>
          rw [round_notDue hi hd] at hs
          obtain rfl := Option.some.inj hs
          exact hquiet
      | true =>
          rw [round_due hi hd] at hs
          obtain rfl := Option.some.inj hs
          exact H.fire hi hd

theorem Invariant.callbackReturn (H : Invariant base w) (hp : w.clock.phase = .callback t)
    {s : BagClock τ} (hs : w.clock.callbackReturn t = some s) :
    Invariant base ⟨s,w.time,record w.clock s w.time .callbackReturn++w.history⟩ := by
  have habsent := H.running t hp
  have hZ : ∀ u, u ≠ t → True → w.clock.phase ≠ .callback u := fun u hu _ h =>
    hu (by simpa [hp] using h.symm)
  -- the clock in which the flag of `t` has been cleared
  let u : BagClock τ := ({w.clock with phase := .checking} : BagClock τ).modify t Timer.deactivate
  have hothers : Others w ⟨u,w.time,w.history⟩ t :=
    ⟨rfl,rfl,fun _ _ => Iff.rfl,fun v hv => by simp [u,Clock.modify,hv],fun _ _ => rfl⟩
  have hkept : Kept base (fun _ => True) ⟨u,w.time,w.history⟩ :=
    H.kept.leave hothers hZ (.refl _) H.kept.justified habsent fun _ => by simp [u,Clock.modify]
  unfold Clock.callbackReturn at hs
  dsimp only at hs
  split_ifs at hs with hagain
  · have hrecord : record w.clock s w.time .callbackReturn =
        [.started t w.time (u.timer t).initTick.toNat] := by
      simp only [record,hp,hagain,ite_true]
      simp [u,Clock.modify,Timer.deactivate]
    rw [hrecord]
    refine (hkept.start hs fun _ _ => id).invariant ?_
    rw [start_eq] at hs
    split_ifs at hs
    obtain rfl := Option.some.inj hs
    simp [started,Clock.modify]
  · obtain rfl := Option.some.inj hs
    have hrecord : record w.clock u w.time .callbackReturn = [] := by
      simp only [record,hp,hagain]
      rfl
    rw [hrecord]
    exact hkept.invariant (by simp [u,Clock.modify])

theorem Invariant.step (H : Invariant base w) {c : Clock.Call τ} (hl : Legal w c)
    (h : call w c = some w') : Invariant base w' := by
  simp only [call,Option.bind_eq_bind,Option.bind_eq_some_iff,Option.some.injEq] at h
  obtain ⟨s,hs,rfl⟩ := h
  cases c with
  | construct | detach => exact hl.elim
  | start t =>
      have hout : w.clock.phase = .outside := hl
      have hs' : w.clock.start t = some s := hs
      refine ((H.all (by simp [hout])).start hs' fun _ _ => id).invariant ?_
      rw [start_eq] at hs'
      split_ifs at hs'
      obtain rfl := Option.some.inj hs'
      simp [started,hout]
  | stop t =>
      have hout : w.clock.phase = .outside := hl
      exact ((H.all (by simp [hout])).stop hs).invariant (by simp [stop_phase hs,hout])
  | control t c =>
      have hout : w.clock.phase = .outside := hl
      obtain rfl := Option.some.inj hs
      exact ((H.all (by simp [hout])).control c).invariant (by simp [Clock.control,Clock.modify,hout])
  | tickIncrease =>
      have hout : w.clock.phase = .outside := hl
      obtain rfl := Option.some.inj hs
      exact (H.all (by simp [hout])).tickIncrease.invariant (by simp [Clock.tickIncrease])
  | round =>
      have hcheck : w.clock.phase = .checking := hl
      exact Invariant.round (H.all (by simp [hcheck])) hs
  | callbackReturn =>
      obtain ⟨t,ht⟩ := hl
      refine H.callbackReturn ht ?_
      simpa [Clock.call,ht] using hs

/-- Timeout functions are called only for timers that were started and not stopped
since, not before their time, and once for every start. -/
theorem callbacks_are_justified (hstart : Start w) {cs : List (Clock.Call τ)}
    (hlegal : AllSteps call Legal w cs) : Throughout call (fun w => Justified w.history) w cs :=
  throughout_of_invariant (fun _ H => H.kept.justified) (fun _ _ _ H hl h => H.step hl h)
    hstart.invariant hlegal

instance (w : World τ) : ∀ c, Decidable (Legal w c)
  | .construct _ _ _ | .detach _ => .isFalse id
  | .start _ | .stop _ | .control _ _ | .tickIncrease =>
      inferInstanceAs (Decidable (w.clock.phase = .outside))
  | .round => inferInstanceAs (Decidable (w.clock.phase = .checking))
  | .callbackReturn =>
      match h : w.clock.phase with
      | .callback t => .isTrue ⟨t,h⟩
      | .outside | .checking => .isFalse fun ⟨t,ht⟩ => by simp [h] at ht

/-- Two unused timers just before the counter wraps around. -/
def beforeWrap : World (Fin 2) :=
  ⟨⟨![.new 1 Timer.FLAG_PERIODIC,.new 2 0],⟨fun _ => 0,[]⟩,0xfffffffe,.outside⟩,0,[]⟩

/-- One timer is called at every tick until it becomes one-shot, the other one once. -/
def overWrap : List (Clock.Call (Fin 2)) :=
  [.start 0,.start 1,.tickIncrease,.round,.callbackReturn,.round,.tickIncrease,.round,
    .callbackReturn,.round,.callbackReturn,.round,.control 0 .setOneshot,.stop 1,.tickIncrease,
    .round,.callbackReturn,.round,.stop 0]

theorem callbacks_are_justified_overWrap :
    ((overWrap.foldlM call beforeWrap).map fun w => w.history.filter fun e => match e with
      | .called _ _ => true
      | _ => false) = some [.called 0 3,.called 0 2,.called 1 2,.called 0 1] ∧
    Throughout call (fun w => Justified w.history) beforeWrap overWrap :=
  ⟨by decide +kernel,callbacks_are_justified ⟨rfl,by decide,rfl,rfl,rfl⟩ (by decide +kernel)⟩

end CosKernel.TimerHistory
