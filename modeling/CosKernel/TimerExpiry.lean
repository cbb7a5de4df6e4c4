import CosKernel.Timers

/-!
# Which timers a check leaves behind

`Timer::check` stops at the first timer in the order of the keys that is not due.
The keys are the expiry ticks read as signed numbers, so a timer that expires after
the tick 2^31 comes before all timers that expire before it. A check leaves no due
timer behind exactly if in the order of the keys every timer before a due one is due
itself and does not return, as a periodic timer does, in front of it.
-/
namespace CosKernel.TimerExpiry

abbrev BagClock (τ : Type) := Clock (OrderedBag τ) τ

variable {τ : Type} [DecidableEq τ]

/-- The timers in the tree are active and sorted by their expiry, and no assertion keeps a
periodic one from starting again. -/
structure Armed (s : BagClock τ) : Prop where
  nodup : s.tree.items.Nodup
  sorted : s.tree.Sorted
  keys : ∀ t ∈ s.tree.items, s.tree.key t = Timer.key (s.timer t).timeoutTick
  active : ∀ t ∈ s.tree.items, (s.timer t).activated = true
  accepted : ∀ t ∈ s.tree.items, (s.timer t).periodic = true →
    (s.timer t).initTick.toNat < TICK_MAX/2

/-- Moreover a periodic one is not due again at once when it has been started again. -/
structure Standing (s : BagClock τ) : Prop extends Armed s where
  positive : ∀ t ∈ s.tree.items, (s.timer t).periodic = true → 0 < (s.timer t).initTick.toNat

/-- No timer in the tree is due. -/
def NoneDue (s : BagClock τ) : Prop :=
  ∀ t ∈ s.tree.items, TICK_MAX/2 ≤ (s.tick-(s.timer t).timeoutTick).toNat

/-- `a` does not hold up `b`, which comes later in the order of the keys. -/
def Ahead (s : BagClock τ) (a b : τ) : Prop :=
  s.due b = true → s.due a = true ∧ ((s.timer a).periodic = true →
    Timer.key (s.timer b).timeoutTick < Timer.key (s.tick+(s.timer a).initTick))

variable {s s' : BagClock τ} {a b : τ} {rest : List τ}

omit [DecidableEq τ] in
theorem due_eq_false : s.due a = false ↔ TICK_MAX/2 ≤ (s.tick-(s.timer a).timeoutTick).toNat := by
  simp [Clock.due]

omit [DecidableEq τ] in
theorem noneDue_iff : NoneDue s ↔ ∀ t ∈ s.tree.items, s.due t = false := by
  simp only [NoneDue,due_eq_false]

/-- The timer at the head is taken out and its timeout function called. -/
theorem round_due (hi : s.tree.items = a::rest) (hd : s.due a = true) :
    s.round = some {s with tree := {s.tree with items := rest}, phase := .callback a} := by
  simp [Clock.round,TimerTree.min,TimerTree.remove,OrderedBag.remove,hi,hd]

theorem round_notDue (hi : s.tree.items = a::rest) (hd : s.due a = false) :
    s.round = some {s with phase := .outside} := by
  simp [Clock.round,TimerTree.min,hi,hd]

theorem round_empty (hi : s.tree.items = []) : s.round = some {s with phase := .outside} := by
  simp [Clock.round,TimerTree.min,hi]

/-- The clock after a successful start of `a`. -/
def started (s : BagClock τ) (a : τ) : BagClock τ :=
  {s with
    timer := Function.update s.timer a (Timer.activate {(s.timer a).deactivate with
      timeoutTick := s.tick+(s.timer a).initTick})
    tree := ((s.tree.remove a).setKey a (Timer.key (s.tick+(s.timer a).initTick))).insert a}

theorem start_eq : s.start a =
    if (s.timer a).initTick.toNat < TICK_MAX/2 then some (started s a) else none := by
  simp [Clock.start,Clock.modify,TimerTree.remove,TimerTree.insert,TimerTree.setKey,started,
    Timer.deactivate,Timer.activate]

theorem periodic_started : ((started s a).timer a).periodic = (s.timer a).periodic := by
  rw [started]
  simp only [Function.update_self,Timer.periodic_activate]
  exact Timer.periodic_deactivate _

/-- A timer that is not in the tree enters it behind all timers that do not expire
later in the order of the keys. -/
theorem start_absent (ha : a ∉ s.tree.items)
    (hinit : (s.timer a).initTick.toNat < TICK_MAX/2) :
    ∃ x, s.start a = some {s with
        timer := Function.update s.timer a x
        tree := (s.tree.setKey a (Timer.key (s.tick+(s.timer a).initTick))).insert a} ∧
      x.activated = true ∧ x.periodic = (s.timer a).periodic ∧
      x.initTick = (s.timer a).initTick ∧ x.timeoutTick = s.tick+(s.timer a).initTick := by
  have herase : s.tree.remove a = s.tree := by
    simp [OrderedBag.remove,List.erase_of_not_mem ha]
  refine ⟨(started s a).timer a,?_,by simp [started],periodic_started,by simp [started]; rfl,
    by simp [started]; rfl⟩
  rw [start_eq,if_pos hinit]
  simp [started,herase]

/-- The timer `a` has been taken from the head of the tree and deactivated. -/
def dropped (s : BagClock τ) (a : τ) (rest : List τ) : BagClock τ :=
  ({s with tree := {s.tree with items := rest}, phase := .checking} : BagClock τ).modify a
    Timer.deactivate

theorem dropped_timer_of_ne (h : b ≠ a) : (dropped s a rest).timer b = s.timer b := by
  simp [dropped,Clock.modify,h]

theorem dropped_initTick : ((dropped s a rest).timer a).initTick = (s.timer a).initTick := by
  simp [dropped,Clock.modify,Timer.deactivate]

theorem Armed.dropped (H : Armed s) (hi : s.tree.items = a::rest) : Armed (dropped s a rest) := by
  obtain ⟨hnodup,hsorted,hkeys,hactive,haccepted⟩ := H
  rw [OrderedBag.Sorted,hi,List.pairwise_cons] at hsorted
  rw [hi] at hnodup hkeys hactive haccepted
  obtain ⟨ha,hnodup⟩ := List.nodup_cons.mp hnodup
  have hne : ∀ b ∈ rest, b ≠ a := fun b hb hba => ha (hba ▸ hb)
  refine ⟨hnodup,hsorted.2,fun b hb => ?_,fun b hb => ?_,fun b hb => ?_⟩
  · rw [dropped_timer_of_ne (hne b hb)]
    exact hkeys b (List.mem_cons_of_mem a hb)
  · rw [dropped_timer_of_ne (hne b hb)]
    exact hactive b (List.mem_cons_of_mem a hb)
  · rw [dropped_timer_of_ne (hne b hb)]
    exact haccepted b (List.mem_cons_of_mem a hb)

theorem Standing.dropped (H : Standing s) (hi : s.tree.items = a::rest) :
    Standing (dropped s a rest) := by
  refine ⟨H.toArmed.dropped hi,fun b hb => ?_⟩
  have hba : b ≠ a := fun hba => (List.nodup_cons.mp (hi ▸ H.nodup)).1 (hba ▸ hb)
  rw [dropped_timer_of_ne hba]
  exact H.positive b (hi ▸ List.mem_cons_of_mem a hb)

/-- The loop body for a timer that is due. -/
theorem checkLoop_due (hi : s.tree.items = a::rest) (hd : s.due a = true)
    (ha : (s.timer a).activated = true) (fuel : ℕ) :
    Clock.checkLoop (fuel+1) s = (if (s.timer a).periodic = true then
      (dropped s a rest).start a else some (dropped s a rest)).bind (Clock.checkLoop fuel) := by
  rw [Clock.checkLoop,round_due hi hd]
  simp [Clock.callbackReturn,ha,dropped]

/-- A restarted timer is not due. -/
theorem restarted_notDue (tick : BitVec 32) {init : BitVec 32} (h₀ : 0 < init.toNat)
    (h₁ : init.toNat < TICK_MAX/2) : TICK_MAX/2 ≤ (tick-(tick+init)).toNat := by
  have hsub : tick-(tick+init) = -init := by simp
  rw [hsub,BitVec.toNat_neg]
  unfold TICK_MAX at *
  omega

/-- `s'` is `s` with the timer `a` started: in the order of the keys it comes after `l` and
before `r`. -/
structure Entered (s s' : BagClock τ) (a : τ) (l r : List τ) : Prop where
  armed : Armed s'
  tick : s'.tick = s.tick
  others : ∀ b, b ≠ a → s'.timer b = s.timer b
  timeoutTick : (s'.timer a).timeoutTick = s.tick+(s.timer a).initTick
  periodic : (s'.timer a).periodic = (s.timer a).periodic
  initTick : (s'.timer a).initTick = (s.timer a).initTick
  before : s.tree.items = l++r
  after : s'.tree.items = l++a::r
  left : ∀ b ∈ l, Timer.key (s.timer b).timeoutTick ≤
    Timer.key (s.tick+(s.timer a).initTick)
  right : ∀ b ∈ r, Timer.key (s.tick+(s.timer a).initTick) <
    Timer.key (s.timer b).timeoutTick

theorem Armed.start (H : Armed s) (ha : a ∉ s.tree.items)
    (hinit : (s.timer a).initTick.toNat < TICK_MAX/2) :
    ∃ s' l r, s.start a = some s' ∧ Entered s s' a l r := by
  obtain ⟨x,hstart,hxa,hxp,hxi,hxt⟩ := start_absent ha hinit
  have hne : ∀ b ∈ s.tree.items, b ≠ a := fun b hb hba => ha (hba ▸ hb)
  have hsorted := H.sorted.setKey ha (Timer.key (s.tick+(s.timer a).initTick))
  have hkey : ∀ b ∈ s.tree.items, (s.tree.setKey a
      (Timer.key (s.tick+(s.timer a).initTick))).key b = Timer.key (s.timer b).timeoutTick :=
    fun b hb => by simpa [OrderedBag.setKey,hne b hb] using H.keys b hb
  obtain ⟨l,r,hlr,hplace,hl,hr⟩ := OrderedBag.place_sorted (a := a) hsorted
  rw [OrderedBag.setKey_items] at hlr
  have hself : (s.tree.setKey a (Timer.key (s.tick+(s.timer a).initTick))).key a =
      Timer.key (s.tick+(s.timer a).initTick) := by simp [OrderedBag.setKey]
  rw [hself] at hl hr
  have hmem : ∀ b, b ∈ ((s.tree.setKey a
      (Timer.key (s.tick+(s.timer a).initTick))).insert a).items → b = a ∨ b ∈ s.tree.items :=
    fun b hb => OrderedBag.mem_place.mp hb
  refine ⟨_,l,r,hstart,⟨?_,hsorted.insert a,fun b hb => ?_,fun b hb => ?_,fun b hb hp => ?_⟩,rfl,
    fun b hb => by simp [hb],by simpa using hxt,by simpa using hxp,by simpa using hxi,hlr,hplace,
    fun b hb => ?_,fun b hb => ?_⟩
  · exact OrderedBag.place_perm.nodup_iff.mpr (List.nodup_cons.mpr ⟨ha,H.nodup⟩)
  · rcases hmem b hb with rfl | hb
    · simpa [hxt] using hself
    · simpa [hne b hb] using hkey b hb
  · rcases hmem b hb with rfl | hb
    · simpa using hxa
    · simpa [hne b hb] using H.active b hb
  · rcases hmem b hb with rfl | hb
    · simpa [hxi] using hinit
    · simpa [hne b hb] using H.accepted b hb (by simpa [hne b hb] using hp)
  · rw [← hkey b (by rw [hlr]; simp [hb])]
    exact hl b hb
  · rw [← hkey b (by rw [hlr]; simp [hb])]
    exact hr b hb

omit [DecidableEq τ] in
theorem Entered.notDue {l r : List τ} (E : Entered s s' a l r)
    (h₀ : 0 < (s.timer a).initTick.toNat) (h₁ : (s.timer a).initTick.toNat < TICK_MAX/2) :
    s'.due a = false := by
  rw [due_eq_false,E.tick,E.timeoutTick]
  exact restarted_notDue s.tick h₀ h₁

theorem Standing.entered {l r : List τ} (H : Standing s) (E : Entered s s' a l r)
    (h₀ : 0 < (s.timer a).initTick.toNat) : Standing s' := by
  refine ⟨E.armed,fun b hb hp => ?_⟩
  by_cases hba : b = a
  · rwa [hba,E.initTick]
  · rw [E.others b hba] at hp ⊢
    have hmem : b ∈ l++r := by
      rw [E.after] at hb
      simpa [hba] using hb
    exact H.positive b (E.before ▸ hmem) hp

/-- The number of due timers, which every round makes smaller. -/
def dueCount (s : BagClock τ) : ℕ := s.tree.items.countP fun t => s.due t

omit [DecidableEq τ] in
/-- Two states agree about the timers of a list. -/
theorem ahead_congr (htick : s'.tick = s.tick) {xs : List τ}
    (h : ∀ b ∈ xs, s'.timer b = s.timer b) :
    xs.Pairwise (Ahead s') ↔ xs.Pairwise (Ahead s) := by
  refine List.Pairwise.iff_of_mem fun {b c} hb hc => ?_
  simp [Ahead,Clock.due,htick,h b hb,h c hc]

omit [DecidableEq τ] in
theorem dueCount_congr (htick : s'.tick = s.tick) {xs : List τ}
    (h : ∀ b ∈ xs, s'.timer b = s.timer b) :
    (xs.countP fun t => s'.due t) = xs.countP fun t => s.due t :=
  List.countP_congr fun b hb => by simp [Clock.due,htick,h b hb]

omit [DecidableEq τ] in
/-- A timer that is not due holds up all due timers behind it. -/
theorem pairwise_of_notDue (hi : s.tree.items = a::rest) (hd : s.due a = false) :
    NoneDue s ↔ s.tree.items.Pairwise (Ahead s) := by
  rw [noneDue_iff]
  constructor
  · intro h
    refine List.Pairwise.imp_of_mem (R := fun _ _ => True) (fun {b c} _ hc _ hdue => ?_)
      (List.pairwise_of_forall fun _ _ => trivial)
    rw [h c hc] at hdue
    simp at hdue
  · intro h t ht
    rw [hi] at h ht
    rcases List.mem_cons.mp ht with rfl | ht
    · exact hd
    · by_contra hdue
      have hahead := (List.pairwise_cons.mp h).1 t ht (by simpa using hdue)
      rw [hd] at hahead
      simp at hahead

/-- A one-shot timer that is due holds up nobody. -/
theorem pairwise_oneshot (hi : s.tree.items = a::rest) (ha : a ∉ rest) (hd : s.due a = true)
    (hp : (s.timer a).periodic = false) :
    (dropped s a rest).tree.items.Pairwise (Ahead (dropped s a rest)) ↔
      s.tree.items.Pairwise (Ahead s) := by
  have hcongr : rest.Pairwise (Ahead (dropped s a rest)) ↔ rest.Pairwise (Ahead s) :=
    ahead_congr (show (dropped s a rest).tick = s.tick from rfl) fun b hb =>
      dropped_timer_of_ne fun hba => ha (hba ▸ hb)
  rw [hi,List.pairwise_cons]
  refine hcongr.trans ⟨fun h => ⟨fun b _ _ => ⟨hd,fun h => by simp [hp] at h⟩,h⟩,fun h => h.2⟩

/-- A periodic timer that is due holds up the due timers behind the place to which
it returns. -/
theorem pairwise_periodic (hi : s.tree.items = a::rest) (ha : a ∉ rest) (hd : s.due a = true)
    (h₀ : 0 < (s.timer a).initTick.toNat) (h₁ : (s.timer a).initTick.toNat < TICK_MAX/2)
    (hp : (s.timer a).periodic = true) {l r : List τ} (R : Entered (dropped s a rest) s' a l r) :
    s'.tree.items.Pairwise (Ahead s') ↔ s.tree.items.Pairwise (Ahead s) := by
  obtain rfl : rest = l++r := R.before
  have htick : s'.tick = s.tick := R.tick
  have hother : ∀ b ∈ l++r, s'.timer b = s.timer b := fun b hb => by
    have hba : b ≠ a := fun hba => ha (hba ▸ hb)
    rw [R.others b hba,dropped_timer_of_ne hba]
  have hinit : ((dropped s a (l++r)).timer a).initTick = (s.timer a).initTick := dropped_initTick
  have hnotDue : s'.due a = false := R.notDue (hinit.symm ▸ h₀) (hinit.symm ▸ h₁)
  have hdue : ∀ b ∈ l++r, s'.due b = s.due b := fun b hb => by
    simp [Clock.due,hother b hb,htick]
  have hkey : ∀ b ∈ l++r, (s'.timer b).timeoutTick = ((dropped s a (l++r)).timer b).timeoutTick :=
    fun b hb => by rw [R.others b fun hba => ha (hba ▸ hb)]
  -- a due timer does not expire at the tick at which `a` expires next
  have hne : ∀ b ∈ l++r, s.due b = true →
      (s.timer b).timeoutTick ≠ s.tick+(s.timer a).initTick := by
    intro b hb hdue heq
    have := restarted_notDue s.tick h₀ h₁
    simp only [Clock.due,heq,decide_eq_true_eq] at hdue
    omega
  have hleft : ∀ c ∈ l, Ahead s a c := by
    intro c hc hdue
    have hmem : c ∈ l++r := by simp [hc]
    have hle := R.left c hc
    rw [hinit,← hkey c hmem,hother c hmem] at hle
    exact ⟨hd,fun _ => lt_of_le_of_ne hle fun h => hne c hmem hdue (Timer.key_injective h)⟩
  have hright : ∀ c ∈ r, (Ahead s a c ↔ s.due c = false) := by
    intro c hc
    have hmem : c ∈ l++r := by simp [hc]
    have hlt := R.right c hc
    rw [hinit,← hkey c hmem,hother c hmem] at hlt
    refine ⟨fun h => ?_,fun h hdue => by simp [h] at hdue⟩
    by_contra hdue
    exact absurd ((h (by simpa using hdue)).2 hp) (not_lt.mpr hlt.le)
  have hright' : ∀ c ∈ r, (Ahead s' a c ↔ s.due c = false) := by
    intro c hc
    rw [Ahead,hdue c (by simp [hc]),hnotDue]
    simp
  rw [R.after,hi,List.pairwise_append,List.pairwise_cons,List.pairwise_cons,
    ← ahead_congr htick hother,List.pairwise_append]
  constructor
  · rintro ⟨hl,⟨har,hr⟩,hlr⟩
    refine ⟨fun c hc => ?_,hl,hr,fun b hb c hc => hlr b hb c (List.mem_cons_of_mem a hc)⟩
    rcases List.mem_append.mp hc with hc | hc
    · exact hleft c hc
    · exact (hright c hc).mpr ((hright' c hc).mp (har c hc))
  · rintro ⟨hac,hl,hr,hlr⟩
    refine ⟨hl,⟨fun c hc => (hright' c hc).mpr ((hright c hc).mp (hac c (by simp [hc]))),hr⟩,
      fun b hb c hc => ?_⟩
    rcases List.mem_cons.mp hc with rfl | hc
    · intro hdue
      rw [hnotDue] at hdue
      simp at hdue
    · exact hlr b hb c hc

theorem dueCount_dropped (hi : s.tree.items = a::rest) (ha : a ∉ rest) (hd : s.due a = true) :
    dueCount s = dueCount (dropped s a rest)+1 := by
  have hrest : dueCount (dropped s a rest) = rest.countP fun t => s.due t :=
    dueCount_congr (show (dropped s a rest).tick = s.tick from rfl) fun b hb =>
      dropped_timer_of_ne fun hba => ha (hba ▸ hb)
  rw [hrest]
  simp [dueCount,hi,hd]

omit [DecidableEq τ] in
/-- A timer that starts is not due. -/
theorem Entered.dueCount {l r : List τ} (E : Entered s s' a l r) (ha : a ∉ s.tree.items)
    (h₀ : 0 < (s.timer a).initTick.toNat) (h₁ : (s.timer a).initTick.toNat < TICK_MAX/2) :
    dueCount s' = dueCount s := by
  have hsame : ((l++r).countP fun t => s'.due t) = (l++r).countP fun t => s.due t :=
    dueCount_congr E.tick fun b hb => E.others b fun hba => ha (E.before ▸ hba ▸ hb)
  rw [TimerExpiry.dueCount,TimerExpiry.dueCount,E.after,E.before,← hsame,List.countP_append,
    List.countP_append,List.countP_cons_of_neg (by simp [E.notDue h₀ h₁])]

/-- Every round of the loop makes the number of due timers smaller and keeps what
decides whether a due timer is left behind. -/
theorem checkLoop_iff (H : Standing s) : ∃ s',
    (∀ fuel, dueCount s < fuel → Clock.checkLoop fuel s = some s') ∧
      (NoneDue s' ↔ s.tree.items.Pairwise (Ahead s)) := by
  induction hn : dueCount s using Nat.strong_induction_on generalizing s with
  | _ n ih =>
    subst hn
    -- the loop goes on from `u` with fewer due timers
    have hstep : ∀ u, Standing u → dueCount u < dueCount s →
        (∀ fuel, Clock.checkLoop (fuel+1) s = Clock.checkLoop fuel u) →
        (u.tree.items.Pairwise (Ahead u) ↔ s.tree.items.Pairwise (Ahead s)) →
        ∃ s', (∀ fuel, dueCount s < fuel → Clock.checkLoop fuel s = some s') ∧
          (NoneDue s' ↔ s.tree.items.Pairwise (Ahead s)) := by
      intro u hu hlt hloop hiff
      obtain ⟨s',hs',hnone⟩ := ih (dueCount u) hlt hu rfl
      refine ⟨s',fun fuel hfuel => ?_,hnone.trans hiff⟩
      obtain ⟨fuel,rfl⟩ := Nat.exists_eq_add_of_le' (show 1 ≤ fuel by omega)
      rw [hloop]
      exact hs' fuel (by omega)
    cases hi : s.tree.items with
    | nil =>
        refine ⟨{s with phase := .outside},fun fuel hfuel => ?_,by simp [NoneDue,hi]⟩
        obtain ⟨fuel,rfl⟩ := Nat.exists_eq_add_of_le' (show 1 ≤ fuel by omega)
        simp [Clock.checkLoop,round_empty hi]
    | cons a rest =>
        have ha : a ∉ rest := (List.nodup_cons.mp (hi ▸ H.nodup)).1
        have hmem : a ∈ s.tree.items := by simp [hi]
        cases hd : s.due a with
        | false =>
            refine ⟨{s with phase := .outside},fun fuel hfuel => ?_,?_⟩
            · obtain ⟨fuel,rfl⟩ := Nat.exists_eq_add_of_le' (show 1 ≤ fuel by omega)
              simp [Clock.checkLoop,round_notDue hi hd]
            · rw [← hi]
              exact pairwise_of_notDue hi hd
        | true =>
            rw [← hi]
            have hloop := checkLoop_due hi hd (H.active a hmem)
            have hcount := dueCount_dropped hi ha hd
            cases hp : (s.timer a).periodic with
            | false =>
                exact hstep (dropped s a rest) (H.dropped hi) (by omega)
                  (fun fuel => by simp [hloop,hp]) (pairwise_oneshot hi ha hd hp)
            | true =>
                have h₀ := H.positive a hmem hp
                have h₁ := H.accepted a hmem hp
                have hinit : ((dropped s a rest).timer a).initTick = (s.timer a).initTick :=
                  dropped_initTick
                obtain ⟨u,l,r,hstart,R⟩ := (H.dropped hi).start ha (hinit.symm ▸ h₁)
                have hsame := R.dueCount ha (hinit.symm ▸ h₀) (hinit.symm ▸ h₁)
                exact hstep u ((H.dropped hi).entered R (hinit.symm ▸ h₀)) (by omega)
                  (fun fuel => by simp [hloop,hp,hstart]) (pairwise_periodic hi ha hd h₀ h₁ hp R)

/-- A check with timeout functions that do not use timers comes to an end, and leaves
no due timer behind exactly if no timer holds up another one. -/
theorem check_leaves_none_due_iff (H : Standing s) : ∃ s',
    (∀ fuel, s.tree.items.length < fuel → s.check fuel = some s') ∧
      (NoneDue s' ↔ s.tree.items.Pairwise (Ahead s)) := by
  obtain ⟨s',hs',hiff⟩ := checkLoop_iff (s := {s with phase := .checking})
    ⟨⟨H.nodup,H.sorted,H.keys,H.active,H.accepted⟩,H.positive⟩
  refine ⟨s',fun fuel hfuel => hs' fuel (lt_of_le_of_lt ?_ hfuel),hiff⟩
  exact List.countP_le_length

instance (s : BagClock τ) (a b : τ) : Decidable (Ahead s a b) :=
  inferInstanceAs (Decidable (s.due b = true → s.due a = true ∧ ((s.timer a).periodic = true → _)))

/-- A periodic timer of 5 ticks and a one-shot timer of 100 ticks. -/
def twoTimers : Fin 2 → Timer :=
  ![.new 5 Timer.FLAG_PERIODIC,.new 100 0]

/-- Both timers are started at the tick `tick`, and then five ticks go by. -/
def afterFive (tick : BitVec 32) : BagClock (Fin 2) :=
  let s : BagClock (Fin 2) := ⟨twoTimers,⟨fun _ => 0,[]⟩,tick,.outside⟩
  {((s.start 0).bind fun s => s.start 1).getD s with tick := tick+5}

theorem check_leaves_none_due_afterFive : ∃ s',
    (∀ fuel, 2 < fuel → (afterFive 1000).check fuel = some s') ∧ NoneDue s' := by
  have hstanding : Standing (afterFive 1000) := ⟨⟨by decide +kernel,
    by unfold OrderedBag.Sorted; decide +kernel,by decide +kernel,by decide +kernel,
    by decide +kernel⟩,by decide +kernel⟩
  obtain ⟨s',hs',hiff⟩ := check_leaves_none_due_iff hstanding
  exact ⟨s',hs',hiff.mpr (by decide +kernel)⟩

/-- The second timer expires after the tick 2^31 and comes first in the order of the
signed keys, so the first one is left behind when it is due. -/
theorem afterFive_leaves_due :
    ((afterFive 0x7ffffff0).check 3).map (fun s =>
      (s.tick,s.tree.items,(s.timer 0).timeoutTick,s.due 0)) =
        some (0x7ffffff5,[1,0],0x7ffffff5,true) ∧
    ∃ s ∈ (afterFive 0x7ffffff0).check 3, ¬NoneDue s := by
  have hfacts : ((afterFive 0x7ffffff0).check 3).map (fun s =>
      (s.tick,s.tree.items,(s.timer 0).timeoutTick,s.due 0)) =
        some (0x7ffffff5,[1,0],0x7ffffff5,true) := by decide +kernel
  refine ⟨hfacts,?_⟩
  obtain ⟨s,hs,hfacts⟩ := Option.map_eq_some_iff.mp hfacts
  simp only [Prod.mk.injEq] at hfacts
  refine ⟨s,hs,fun h => ?_⟩
  have hdue := noneDue_iff.mp h 0 (by simp [hfacts.2.1])
  rw [hfacts.2.2.2] at hdue
  simp at hdue

end CosKernel.TimerExpiry
