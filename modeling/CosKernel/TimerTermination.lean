import CosKernel.TimerExpiry

/-!
# When a check comes to an end

The loop of `Timer::check` puts a periodic timer back into the tree that it drains.
With a period of at least one tick the timer is not due any more, so every due timer is
called once. `Timer::start` accepts a period of zero ticks too: such a timer is due again
at once, and the loop only ends if it meets a timer that is not due before it comes back
to that one.
-/
namespace CosKernel.TimerTermination
open TimerExpiry

variable {τ : Type} [DecidableEq τ]

section conditions

variable {σ : Type}

/-- The key with which `a` enters the tree when it is started now. -/
def nextKey (s : Clock σ τ) (a : τ) : ℤ := Timer.key (s.tick+(s.timer a).initTick)

def keyOf (s : Clock σ τ) (a : τ) : ℤ := Timer.key (s.timer a).timeoutTick

/-- `a` is due and will be due again whenever it has been called. -/
def Restless (s : Clock σ τ) (a : τ) : Prop :=
  s.due a = true ∧ (s.timer a).periodic = true ∧ (s.timer a).initTick = 0

/-- The loop calls `a` and does not meet it again before the key `limit`, or always calls it. -/
def Passes (s : Clock σ τ) (limit : ℤ) (a : τ) : Prop :=
  s.due a = true ∧
    ((s.timer a).periodic = true → (s.timer a).initTick ≠ 0 → limit < nextKey s a)

/-- The last key that the loop comes to until it has called `z` for the second time. -/
def limit (s : Clock σ τ) (z : τ) : ℤ := max (Timer.key s.tick) (keyOf s z)

/-- The timers of `ts` that the loop meets until then pass. -/
def Passed (s : Clock σ τ) (ts : List τ) (z : τ) : Prop :=
  ∀ a ∈ ts, [a,z].Sublist ts ∨ keyOf s a ≤ Timer.key s.tick → Passes s (limit s z) a

/-- With the timers `ts` in the tree, in the order of their keys, the loop comes back again and
again to a timer without a period. -/
def Stuck (s : Clock σ τ) (ts : List τ) : Prop :=
  ∃ z ∈ ts, Restless s z ∧ Passed s ts z

end conditions

variable {s s' u : BagClock τ} {a b z : τ} {rest l r : List τ}

omit [DecidableEq τ] in
theorem keyOf_ne (hb : s.due b = true) (ha : s.due a = false) : keyOf s b ≠ keyOf s a := by
  intro h
  have hsame : s.due b = s.due a := by simp only [Clock.due,Timer.key_injective h]
  rw [hsame,ha] at hb
  cases hb

/-- Only the timer `a` has changed. -/
structure Apart (s u : BagClock τ) (a : τ) : Prop where
  tick : u.tick = s.tick
  others : ∀ b, b ≠ a → u.timer b = s.timer b

namespace Apart

omit [DecidableEq τ]

variable (A : Apart s u a)

include A

theorem due (hb : b ≠ a) : u.due b = s.due b := by simp [Clock.due,A.tick,A.others b hb]

theorem keyOf (hb : b ≠ a) : keyOf u b = keyOf s b := by
  simp [TimerTermination.keyOf,A.others b hb]

theorem restless (hb : b ≠ a) : Restless u b ↔ Restless s b := by
  simp [Restless,A.due hb,A.others b hb]

theorem passes (hb : b ≠ a) (limit : ℤ) : Passes u limit b ↔ Passes s limit b := by
  simp [Passes,nextKey,A.due hb,A.others b hb,A.tick]

end Apart

section order

omit [DecidableEq τ]

theorem sublist_cons_pair (ha : a ∉ rest) (hb : b ∈ rest) :
    [b,z].Sublist (a::rest) ↔ [b,z].Sublist rest := by
  constructor
  · intro h
    cases h with
    | cons _ h => exact h
    | cons_cons => exact absurd hb ha
  · exact fun h => h.cons a

theorem sublist_middle_pair (ha : a ∉ l++r) (hz : z ≠ a) (hb : b ≠ a) :
    [b,z].Sublist (l++a::r) ↔ [b,z].Sublist (l++r) := by
  constructor
  · intro h
    induction l with
    | nil =>
        cases h with
        | cons _ h => exact h
        | cons_cons => exact absurd rfl hb
    | cons c l ih =>
        cases h with
        | cons _ h => exact (ih (fun h => ha (List.mem_cons_of_mem c h)) h).cons c
        | cons_cons _ h =>
            have hzl : z ∈ l++a::r := List.singleton_sublist.mp h
            refine List.Sublist.cons_cons b (List.singleton_sublist.mpr ?_)
            simpa [hz] using hzl
  · exact fun h => h.trans ((List.Sublist.refl l).append (List.sublist_cons_self a r))

theorem sublist_middle_left (ha : a ∉ l) : [a,z].Sublist (l++a::r) ↔ z ∈ r := by
  constructor
  · intro h
    induction l with
    | nil =>
        cases h with
        | cons _ h => exact h.subset (by simp)
        | cons_cons _ h => exact List.singleton_sublist.mp h
    | cons c l ih =>
        cases h with
        | cons _ h => exact ih (fun h => ha (List.mem_cons_of_mem c h)) h
        | cons_cons => exact absurd (List.mem_cons_self ..) ha
  · intro h
    exact ((List.singleton_sublist.mpr h).cons_cons a).trans (List.sublist_append_right l (a::r))

theorem sublist_middle_right (ha : a ∉ r) : [b,a].Sublist (l++a::r) ↔ b ∈ l := by
  constructor
  · intro h
    induction l with
    | nil =>
        cases h with
        | cons _ h => exact absurd (h.subset (by simp)) ha
        | cons_cons _ h => exact absurd (List.singleton_sublist.mp h) ha
    | cons c l ih =>
        cases h with
        | cons _ h => exact List.mem_cons_of_mem c (ih h)
        | cons_cons => exact List.mem_cons_self ..
  · intro h
    exact (List.singleton_sublist.mpr h).append (List.singleton_sublist.mpr (List.mem_cons_self ..))

end order

section passed

omit [DecidableEq τ]

theorem Restless.passes (h : Restless s z) (k : ℤ) : Passes s k z :=
  ⟨h.1,fun _ hne => absurd h.2.2 hne⟩

theorem passed_cons (ha : a ∉ rest) (hz : z ∈ rest) :
    Passed s (a::rest) z ↔ Passes s (limit s z) a ∧ Passed s rest z := by
  constructor
  · intro h
    refine ⟨h a (List.mem_cons_self ..) (.inl ?_),fun b hb hcase => ?_⟩
    · exact (List.singleton_sublist.mpr hz).cons_cons a
    · exact h b (List.mem_cons_of_mem a hb) (hcase.imp_left (sublist_cons_pair ha hb).mpr)
  · rintro ⟨hself,hrest⟩ b hb hcase
    obtain rfl | hb := List.mem_cons.mp hb
    · exact hself
    · exact hrest b hb (hcase.imp_left (sublist_cons_pair ha hb).mp)

theorem passed_middle (ha : a ∉ l++r) (hz : z ∈ l++r) :
    Passed s (l++a::r) z ↔
      (z ∈ r ∨ keyOf s a ≤ Timer.key s.tick → Passes s (limit s z) a) ∧ Passed s (l++r) z := by
  have hne : ∀ b ∈ l++r, b ≠ a := fun b hb hba => ha (hba ▸ hb)
  have hal : a ∉ l := fun h => ha (List.mem_append_left r h)
  constructor
  · intro h
    refine ⟨fun hcase => h a (by simp) (hcase.imp_left (sublist_middle_left hal).mpr),
      fun b hb hcase => h b ?_ (hcase.imp_left ?_)⟩
    · exact ((List.Sublist.refl l).append (List.sublist_cons_self a r)).subset hb
    · exact (sublist_middle_pair ha (hne z hz) (hne b hb)).mpr
  · rintro ⟨hself,hrest⟩ b hb hcase
    by_cases hba : b = a
    · subst hba
      exact hself (hcase.imp_left (sublist_middle_left hal).mp)
    · have hb : b ∈ l++r := by simpa [hba] using hb
      exact hrest b hb (hcase.imp_left (sublist_middle_pair ha (hne z hz) hba).mp)

theorem Apart.passed (A : Apart s u a) {ts : List τ} (ha : a ∉ ts) (hz : z ∈ ts) :
    Passed u ts z ↔ Passed s ts z := by
  have hne : ∀ b ∈ ts, b ≠ a := fun b hb hba => ha (hba ▸ hb)
  refine forall₂_congr fun b hb => ?_
  rw [A.keyOf (hne b hb),A.passes (hne b hb),limit,limit,A.keyOf (hne z hz),A.tick]

end passed

theorem apart_dropped : Apart s (dropped s a rest) a := ⟨rfl,fun _ => dropped_timer_of_ne⟩

/-- The loop goes on without a one-shot timer that it has called. -/
theorem stuck_oneshot (H : Armed s) (hi : s.tree.items = a::rest) (hd : s.due a = true)
    (hp : (s.timer a).periodic = false) : Stuck (dropped s a rest) rest ↔ Stuck s s.tree.items := by
  have ha : a ∉ rest := (List.nodup_cons.mp (hi ▸ H.nodup)).1
  have hself : ∀ k, Passes s k a := fun k => ⟨hd,fun h => by simp [hp] at h⟩
  constructor
  · rintro ⟨z,hz,hrestless,hpassed⟩
    have hz : z ∈ rest := hz
    have hza : z ≠ a := fun h => ha (h ▸ hz)
    refine ⟨z,by simp [hi,hz],(apart_dropped.restless hza).mp hrestless,?_⟩
    rw [hi,passed_cons ha hz]
    exact ⟨hself _,(apart_dropped.passed ha hz).mp hpassed⟩
  · rintro ⟨z,hz,hrestless,hpassed⟩
    rw [hi] at hz hpassed
    obtain rfl | hz := List.mem_cons.mp hz
    · simp [hrestless.2.1] at hp
    have hza : z ≠ a := fun h => ha (h ▸ hz)
    refine ⟨z,hz,(apart_dropped.restless hza).mpr hrestless,?_⟩
    exact (apart_dropped.passed ha hz).mpr ((passed_cons ha hz).mp hpassed).2

/-- `u` is `s` after the call of the periodic timer `a` at the head of the tree, which has come
back behind `l` and before `r`. -/
structure Returned (s u : BagClock τ) (a : τ) (l r : List τ) : Prop where
  apart : Apart s u a
  armed : Armed u
  periodic : (u.timer a).periodic = true
  initTick : (u.timer a).initTick = (s.timer a).initTick
  key : keyOf u a = nextKey s a
  due : u.due a = decide ((s.timer a).initTick = 0)
  fresh : a ∉ l++r
  before : s.tree.items = a::(l++r)
  after : u.tree.items = l++a::r
  left : ∀ b ∈ l, keyOf s b ≤ nextKey s a
  right : ∀ b ∈ r, nextKey s a < keyOf s b

theorem exists_returned (H : Armed s) (hi : s.tree.items = a::rest)
    (hp : (s.timer a).periodic = true) :
    ∃ u l r, (dropped s a rest).start a = some u ∧ Returned s u a l r := by
  have ha : a ∉ rest := (List.nodup_cons.mp (hi ▸ H.nodup)).1
  have hinit := H.accepted a (by simp [hi]) hp
  have hsame : ((dropped s a rest).timer a).initTick = (s.timer a).initTick := by
    simp [dropped,Clock.modify,Timer.deactivate]
  obtain ⟨u,l,r,hstart,E⟩ := (H.dropped hi).start ha (hsame ▸ hinit)
  have hrest : rest = l++r := E.before
  have hne : ∀ b ∈ rest, b ≠ a := fun b hb hba => ha (hba ▸ hb)
  have hkey : ∀ b ∈ rest, keyOf (dropped s a rest) b = keyOf s b :=
    fun b hb => apart_dropped.keyOf (hne b hb)
  refine ⟨u,l,r,hstart,⟨E.tick,fun b hb => (E.others b hb).trans (dropped_timer_of_ne hb)⟩,E.armed,
    ?_,E.initTick.trans hsame,?_,?_,hrest ▸ ha,hrest ▸ hi,E.after,fun b hb => ?_,fun b hb => ?_⟩
  · rw [E.periodic]
    simpa [dropped,Clock.modify] using hp
  · rw [keyOf,E.timeoutTick,hsame]
    rfl
  · by_cases hzero : (s.timer a).initTick = 0
    · rw [decide_eq_true hzero,Clock.due,E.tick,E.timeoutTick,hsame,hzero,add_zero,
        sub_self]
      decide
    · have hpos : 0 < (s.timer a).initTick.toNat := by
        rw [Nat.pos_iff_ne_zero]
        exact fun h => hzero (BitVec.eq_of_toNat_eq h)
      rw [decide_eq_false hzero,due_eq_false,E.tick,E.timeoutTick,hsame]
      exact restarted_notDue s.tick hpos hinit
  · have hle := E.left b hb
    rw [hsame] at hle
    exact (hkey b (by simp [hrest,hb])).symm.le.trans hle
  · have hlt := E.right b hb
    rw [hsame] at hlt
    exact hlt.trans_le (hkey b (by simp [hrest,hb])).le

namespace Returned

omit [DecidableEq τ]

variable (R : Returned s u a l r)

include R

/-- A timer with a period stops the loop where it has come back, unless that is too late. -/
theorem passes_iff (hd : s.due a = true) (hp : (s.timer a).periodic = true) (hz : z ∈ l++r)
    (hdue : s.due z = true) :
    (z ∈ r ∨ keyOf u a ≤ Timer.key u.tick → Passes u (limit u z) a) ↔ Passes s (limit s z) a := by
  have hza : z ≠ a := fun h => R.fresh (h ▸ hz)
  have hdue' : u.due z = true := (R.apart.due hza).trans hdue
  have hown := R.due
  by_cases hzero : (s.timer a).initTick = 0
  · rw [decide_eq_true hzero] at hown
    refine iff_of_true (fun _ => ⟨hown,fun _ hne => ?_⟩) ⟨hd,fun _ hne => absurd hzero hne⟩
    exact absurd (R.initTick.trans hzero) hne
  · rw [decide_eq_false hzero] at hown
    have hplace : z ∉ r ↔ keyOf s z < nextKey s a := by
      constructor
      · intro hzr
        have hzl : z ∈ l := (List.mem_append.mp hz).resolve_right hzr
        refine lt_of_le_of_ne (R.left z hzl) ?_
        rw [← R.apart.keyOf hza,← R.key]
        exact keyOf_ne hdue' hown
      · exact fun hlt hzr => (R.right z hzr).asymm hlt
    have hnot : ¬Passes u (limit u z) a := fun h => by simp [hown,Passes] at h
    have hpass : Passes s (limit s z) a ↔ limit s z < nextKey s a :=
      ⟨fun h => h.2 hp hzero,fun h => ⟨hd,fun _ _ => h⟩⟩
    rw [imp_iff_not hnot,hpass,not_or,hplace,R.key,R.apart.tick,not_le,limit,max_lt_iff,and_comm]

theorem restless_iff (hd : s.due a = true) (hp : (s.timer a).periodic = true) :
    Restless u a ↔ Restless s a := by
  have hown := R.due
  refine ⟨fun h => ⟨hd,hp,R.initTick.symm.trans h.2.2⟩,fun h => ⟨?_,R.periodic,?_⟩⟩
  · rw [hown,decide_eq_true h.2.2]
  · exact R.initTick.trans h.2.2

/-- The timers that the loop meets before it calls `a` for the second time. -/
theorem passed_before (H : Armed s) (hr : Restless s a) : Passed s (a::(l++r)) a ↔
    ∀ b ∈ l++r, keyOf s b ≤ Timer.key s.tick → Passes s (Timer.key s.tick) b := by
  have hlimit : ∀ b ∈ l++r, keyOf s b ≤ Timer.key s.tick → limit s a = Timer.key s.tick := by
    intro b hb hle
    have hsorted := H.sorted
    rw [OrderedBag.Sorted,R.before,List.pairwise_cons] at hsorted
    have hab := hsorted.1 b hb
    rw [H.keys a (by simp [R.before]),
      H.keys b (by rw [R.before]; exact List.mem_cons_of_mem a hb)] at hab
    exact max_eq_left (le_trans hab hle)
  constructor
  · intro h b hb hle
    rw [← hlimit b hb hle]
    exact h b (List.mem_cons_of_mem a hb) (.inr hle)
  · intro h b hb hcase
    obtain rfl | hb := List.mem_cons.mp hb
    · exact hr.passes _
    have hle : keyOf s b ≤ Timer.key s.tick := hcase.resolve_left fun hsub =>
      R.fresh (((sublist_cons_pair R.fresh hb).mp hsub).subset (by simp))
    rw [hlimit b hb hle]
    exact h b hb hle

/-- A timer without a period comes back behind all timers that are not after the tick. -/
theorem passed_after (hr : Restless s a) : Passed u (l++a::r) a ↔
    ∀ b ∈ l++r, keyOf s b ≤ Timer.key s.tick → Passes s (Timer.key s.tick) b := by
  have hnext : nextKey s a = Timer.key s.tick := by simp [nextKey,hr.2.2]
  have hlimit : limit u a = Timer.key s.tick := by
    rw [limit,R.key,hnext,R.apart.tick,max_self]
  have har : a ∉ r := fun h => R.fresh (List.mem_append_right l h)
  constructor
  · intro h b hb hle
    have hba : b ≠ a := fun hba => R.fresh (hba ▸ hb)
    have hpass := h b (by simpa [hba] using hb) (.inr (by rwa [R.apart.keyOf hba,R.apart.tick]))
    rwa [hlimit,R.apart.passes hba] at hpass
  · intro h b hb hcase
    by_cases hba : b = a
    · subst hba
      exact ((R.restless_iff hr.1 hr.2.1).mpr hr).passes _
    rw [hlimit,R.apart.passes hba]
    refine h b (by simpa [hba] using hb) ?_
    obtain hsub | hle := hcase
    · exact hnext ▸ R.left b ((sublist_middle_right har).mp hsub)
    · rwa [R.apart.keyOf hba,R.apart.tick] at hle

theorem stuck_iff (H : Armed s) (hd : s.due a = true) (hp : (s.timer a).periodic = true) :
    Stuck u u.tree.items ↔ Stuck s s.tree.items := by
  have hself : Restless u a ∧ Passed u (l++a::r) a ↔ Restless s a ∧ Passed s (a::(l++r)) a := by
    rw [R.restless_iff hd hp]
    exact and_congr_right fun hr => (R.passed_after hr).trans (R.passed_before H hr).symm
  have hother : ∀ z ∈ l++r, (Restless u z ∧ Passed u (l++a::r) z ↔
      Restless s z ∧ Passed s (a::(l++r)) z) := by
    intro z hz
    rw [R.apart.restless fun h => R.fresh (h ▸ hz)]
    refine and_congr_right fun hr => ?_
    rw [passed_middle R.fresh hz,passed_cons R.fresh hz,R.passes_iff hd hp hz hr.1,
      R.apart.passed R.fresh hz]
  simp only [Stuck,R.before,R.after]
  constructor
  · rintro ⟨z,hz,h⟩
    by_cases hza : z = a
    · subst hza
      exact ⟨z,by simp,hself.mp h⟩
    · have hz : z ∈ l++r := by simpa [hza] using hz
      exact ⟨z,List.mem_cons_of_mem a hz,(hother z hz).mp h⟩
  · rintro ⟨z,hz,h⟩
    obtain rfl | hz := List.mem_cons.mp hz
    · exact ⟨z,by simp,hself.mpr h⟩
    · exact ⟨z,((List.Sublist.refl l).append (List.sublist_cons_self a r)).subset hz,
        (hother z hz).mpr h⟩

end Returned

/-- One round of the loop: it ends at the first timer, or goes on after the call. -/
theorem turn_cases (H : Armed s) :
    ((∀ t ∈ s.tree.items.head?, s.due t = false) ∧
      ∀ fuel, Clock.checkLoop (fuel+1) s = some {s with phase := .outside}) ∨
    ∃ a u, s.due a = true ∧ (∀ fuel, Clock.checkLoop (fuel+1) s = Clock.checkLoop fuel u) ∧
      ((∃ rest, s.tree.items = a::rest ∧ (s.timer a).periodic = false ∧ u = dropped s a rest) ∨
        (s.timer a).periodic = true ∧ ∃ l r, Returned s u a l r) := by
  cases hi : s.tree.items with
  | nil => exact .inl ⟨by simp,fun fuel => by simp [Clock.checkLoop,round_empty hi]⟩
  | cons a rest =>
      cases hd : s.due a with
      | false =>
          exact .inl ⟨by simpa using hd,fun fuel => by simp [Clock.checkLoop,round_notDue hi hd]⟩
      | true =>
          have hloop := checkLoop_due hi hd (H.active a (by simp [hi]))
          cases hp : (s.timer a).periodic with
          | false =>
              exact .inr ⟨a,dropped s a rest,hd,fun fuel => by simp [hloop,hp],
                .inl ⟨rest,rfl,hp,rfl⟩⟩
          | true =>
              obtain ⟨u,l,r,hstart,R⟩ := exists_returned H hi hp
              exact .inr ⟨a,u,hd,fun fuel => by simp [hloop,hp,hstart],.inr ⟨hp,l,r,R⟩⟩

omit [DecidableEq τ] in
theorem not_stuck_of_head (h : ∀ t ∈ s.tree.items.head?, s.due t = false) (H : Armed s) :
    ¬Stuck s s.tree.items := by
  rintro ⟨z,hz,hr,hpassed⟩
  cases hi : s.tree.items with
  | nil => simp [hi] at hz
  | cons a rest =>
      have hd : s.due a = false := h a (by simp [hi])
      rw [hi] at hz hpassed
      obtain rfl | hz := List.mem_cons.mp hz
      · simp [hr.1] at hd
      · have ha : a ∉ rest := (List.nodup_cons.mp (hi ▸ H.nodup)).1
        have hpass := ((passed_cons ha hz).mp hpassed).1.1
        simp [hd] at hpass

/-- A stuck loop uses up every fuel. -/
theorem checkLoop_stuck (H : Armed s) (hs : Stuck s s.tree.items) (fuel : ℕ) :
    Clock.checkLoop fuel s = none := by
  induction fuel generalizing s with
  | zero => rfl
  | succ fuel ih =>
      obtain ⟨hhead,-⟩ | ⟨a,u,hd,hloop,hcase⟩ := turn_cases H
      · exact absurd hs (not_stuck_of_head hhead H)
      · rw [hloop]
        obtain ⟨rest,hi,hp,rfl⟩ | ⟨hp,l,r,R⟩ := hcase
        · exact ih (H.dropped hi) ((stuck_oneshot H hi hd hp).mpr hs)
        · exact ih R.armed ((R.stuck_iff H hd hp).mpr hs)

section measure

omit [DecidableEq τ]

instance {σ : Type} (s : Clock σ τ) (k : ℤ) (t : τ) : Decidable (Passes s k t) :=
  inferInstanceAs (Decidable (_ ∧ (_ → _ → _)))

/-- The loop calls the timer `t` once and not again. -/
def CalledOnce (s : BagClock τ) (t : τ) : Bool :=
  s.due t && !((s.timer t).periodic && decide ((s.timer t).initTick = 0))

def calls (s : BagClock τ) : ℕ := s.tree.items.countP (CalledOnce s)

/-- The timer `t` stops the loop before it comes to the key of the tick. -/
def Stops (s : BagClock τ) (t : τ) : Bool :=
  decide (keyOf s t ≤ Timer.key s.tick ∧ ¬Passes s (Timer.key s.tick) t)

/-- How far the loop is from the first such timer. -/
def distance (s : BagClock τ) : ℕ := s.tree.items.findIdx (Stops s)

theorem Apart.calledOnce (A : Apart s u a) (hb : b ≠ a) : CalledOnce u b = CalledOnce s b := by
  simp [CalledOnce,A.due hb,A.others b hb]

theorem Apart.stops (A : Apart s u a) (hb : b ≠ a) : Stops u b = Stops s b := by
  simp [Stops,A.keyOf hb,A.passes hb,A.tick]

theorem Apart.countP (A : Apart s u a) {ts : List τ} (ha : a ∉ ts) :
    ts.countP (CalledOnce u) = ts.countP (CalledOnce s) :=
  List.countP_congr fun b hb => by rw [A.calledOnce fun hba => ha (hba ▸ hb)]

theorem Apart.findIdx (A : Apart s u a) {ts : List τ} (ha : a ∉ ts) :
    ts.findIdx (Stops u) = ts.findIdx (Stops s) := by
  induction ts with
  | nil => simp
  | cons b ts ih =>
      have hba : b ≠ a := fun h => ha (h ▸ List.mem_cons_self ..)
      have hrest := ih fun h => ha (List.mem_cons_of_mem b h)
      simp only [List.findIdx_cons,A.stops hba,hrest]

/-- A one-shot timer is called once. -/
theorem calls_dropped_lt [DecidableEq τ] (H : Armed s) (hi : s.tree.items = a::rest)
    (hd : s.due a = true) (hp : (s.timer a).periodic = false) :
    calls (dropped s a rest) < calls s := by
  have ha : a ∉ rest := (List.nodup_cons.mp (hi ▸ H.nodup)).1
  have hself : CalledOnce s a = true := by rw [CalledOnce,hd,hp]; rfl
  rw [calls,calls,hi,List.countP_cons_of_pos hself,← apart_dropped.countP ha]
  exact Nat.lt_succ_self _

/-- A timer with a period is called once. -/
theorem Returned.calls_lt (R : Returned s u a l r) (hd : s.due a = true)
    (hne : (s.timer a).initTick ≠ 0) : calls u < calls s := by
  have hown : CalledOnce u a = false := by rw [CalledOnce,R.due,decide_eq_false hne]; rfl
  have hself : CalledOnce s a = true := by
    rw [CalledOnce,hd,decide_eq_false hne,Bool.and_false]
    rfl
  have hsame := R.apart.countP R.fresh
  rw [List.countP_append] at hsame
  rw [calls,calls,R.after,R.before,List.countP_append,List.countP_cons_of_neg (by simp [hown]),
    List.countP_cons_of_pos hself,hsame]
  exact Nat.lt_succ_self _

/-- A timer without a period goes behind the timer that stops the loop. -/
theorem Returned.distance_lt (R : Returned s u a l r) (H : Armed s) (hr : Restless s a)
    (hs : ¬Stuck s s.tree.items) : calls u = calls s ∧ distance u < distance s := by
  have hself : CalledOnce s a = false := by
    rw [CalledOnce,hr.2.1,decide_eq_true hr.2.2]
    simp
  have hown : CalledOnce u a = false := by
    rw [CalledOnce,R.periodic,R.initTick,decide_eq_true hr.2.2]
    simp
  constructor
  · have hsame := R.apart.countP R.fresh
    rw [List.countP_append] at hsame
    rw [calls,calls,R.after,R.before,List.countP_append,List.countP_cons_of_neg (by simp [hown]),
      List.countP_cons_of_neg (by simp [hself]),hsame]
  · have hnot : ¬Passed s (a::(l++r)) a := by
      intro hpassed
      rw [← R.before] at hpassed
      exact hs ⟨a,by simp [R.before],hr,hpassed⟩
    rw [R.passed_before H hr] at hnot
    simp only [not_forall] at hnot
    obtain ⟨b,hb,hle,hpass⟩ := hnot
    have hnext : nextKey s a = Timer.key s.tick := by simp [nextKey,hr.2.2]
    have hbl : b ∈ l := (List.mem_append.mp hb).resolve_right fun hbr =>
      absurd hle (not_le.mpr (hnext ▸ R.right b hbr))
    have hstop : l.findIdx (Stops s) < l.length :=
      List.findIdx_lt_length.mpr ⟨b,hbl,decide_eq_true ⟨hle,hpass⟩⟩
    have hpasses : Stops s a = false := by
      rw [Stops,decide_eq_false]
      exact fun h => h.2 (hr.passes _)
    have hcongr := R.apart.findIdx fun h : a ∈ l => R.fresh (List.mem_append_left r h)
    have hbefore : (a::(l++r)).findIdx (Stops s) = l.findIdx (Stops s)+1 := by
      rw [List.findIdx_cons,hpasses,List.findIdx_append,if_pos hstop]
      rfl
    have hafter : (l++a::r).findIdx (Stops u) = l.findIdx (Stops s) := by
      rw [List.findIdx_append,hcongr,if_pos hstop]
    rw [distance,distance,R.after,R.before,hbefore,hafter]
    exact Nat.lt_succ_self _

end measure

/-- The measure of a loop that is not stuck. -/
theorem checkLoop_ends (H : Armed s) (hs : ¬Stuck s s.tree.items) :
    ∃ fuel s', Clock.checkLoop fuel s = some s' := by
  induction hn : calls s using Nat.strong_induction_on generalizing s with
  | _ n ihn =>
    subst hn
    induction hm : distance s using Nat.strong_induction_on generalizing s with
    | _ m ihm =>
      subst hm
      obtain ⟨-,hend⟩ | ⟨a,u,hd,hloop,hcase⟩ := turn_cases H
      · exact ⟨1,_,hend 0⟩
      have hnext : (∃ fuel s', Clock.checkLoop fuel u = some s') →
          ∃ fuel s', Clock.checkLoop fuel s = some s' := by
        rintro ⟨fuel,s',h⟩
        exact ⟨fuel+1,s',(hloop fuel).trans h⟩
      refine hnext ?_
      obtain ⟨rest,hi,hp,rfl⟩ | ⟨hp,l,r,R⟩ := hcase
      · exact ihn _ (calls_dropped_lt H hi hd hp) (H.dropped hi)
          ((stuck_oneshot H hi hd hp).not.mpr hs) rfl
      have hs' : ¬Stuck u u.tree.items := (R.stuck_iff H hd hp).not.mpr hs
      by_cases hzero : (s.timer a).initTick = 0
      · obtain ⟨hcalls,hlt⟩ := R.distance_lt H ⟨hd,hp,hzero⟩ hs
        exact ihm _ hlt R.armed hs' (hcalls.symm ▸ ihn) rfl
      · exact ihn _ (R.calls_lt hd hzero) R.armed hs' rfl

end CosKernel.TimerTermination
