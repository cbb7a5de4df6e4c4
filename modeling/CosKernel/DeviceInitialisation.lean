import CosKernel.DeviceStates

/-!
# Initialised devices

`open` initialises a device that is not activated yet, but what the driver's
initialisation returns is overwritten by what its `driver_open` returns, and
later calls look at the count only. So a device may be open, read and written
that no driver has ever initialised.
-/
namespace CosKernel.DeviceStates
open TransitionRuns ObjectRegistry

/-- Some driver initialisation has succeeded. -/
def Initialised (s : World) : Prop := .driverInit ERR_OK ∈ s.events

instance (s : World) : Decidable (Initialised s) := inferInstanceAs (Decidable (_ ∈ _))

/-- The driver is asked for data. -/
def Event.Transfer : Event → Prop
  | .driverRead .. => True
  | .driverWrite .. => True
  | _ => False

/-- What the driver's initialisation returns when the call asks for it. -/
def Call.initResult : Call → Option ℤ
  | .deviceInit r => some r.driverInit
  | .deviceOpen r _ => some r.driverInit
  | _ => none

def Initialises (s : World) (a : Call) : Prop := ¬s.Activated ∧ a.initResult = some ERR_OK

theorem deviceInit_events (s : World) (r : Driver) : ∃ es, (s.deviceInit r).1.events = s.events++es ∧
    (.driverInit ERR_OK ∈ es ↔ ¬s.Activated ∧ r.driverInit = ERR_OK) ∧ ∀ e ∈ es, ¬e.Transfer := by
  unfold World.deviceInit
  split_ifs with h hr
  · exact ⟨[],by simp,by simp [h],by simp⟩
  · refine ⟨_,List.append_assoc _ _ _,by simp [hr,hr.symm],?_⟩
    simp [Event.Transfer]
  · refine ⟨[.driverInit r.driverInit],rfl,by simp [h,not_not.mp hr],?_⟩
    simp [Event.Transfer]

/-- All that a call adds to the events. -/
theorem perform_events {s s' : World} {a : Call} {e : Option ℤ} (h : perform s a = some (s',e)) :
    ∃ es, s'.events = s.events++es ∧ (.driverInit ERR_OK ∈ es ↔ Initialises s a) ∧
      ∀ v ∈ es, v.Transfer → s.refCount ≠ 0 := by
  cases a with
  | deviceInit r =>
      obtain ⟨es,hes,hinit,hquiet⟩ := deviceInit_events s r
      obtain ⟨rfl,-⟩ := Prod.mk.inj (Option.some.inj h)
      refine ⟨es,hes,?_,fun v hv ht => absurd ht (hquiet v hv)⟩
      simpa [Initialises,Call.initResult] using hinit
  | deviceOpen r oflag =>
      obtain ⟨es,hes,hinit,hquiet⟩ := deviceInit_events s r
      have hinit' : .driverInit ERR_OK ∈ es ↔ Initialises s (.deviceOpen r oflag) := by
        simpa [Initialises,Call.initResult] using hinit
      have hopen : ∀ v ∈ es++[.driverOpen oflag r.driverOpen],v.Transfer → s.refCount ≠ 0 := by
        intro v hv ht
        obtain hv | hv := List.mem_append.mp hv
        · exact absurd ht (hquiet v hv)
        · rw [List.mem_singleton.mp hv] at ht
          exact ht.elim
      simp only [perform,World.deviceOpen,Option.map_eq_some_iff,Prod.mk.injEq] at h
      obtain ⟨⟨u,v⟩,hu,rfl,rfl⟩ := h
      split_ifs at hu with hbusy hok hwrap
      · obtain ⟨rfl,rfl⟩ := Prod.mk.inj (Option.some.inj hu)
        exact ⟨es,hes,hinit',fun v hv ht => absurd ht (hquiet v hv)⟩
      · obtain ⟨rfl,rfl⟩ := Prod.mk.inj (Option.some.inj hu)
        exact ⟨_,by simp [hes],by simp [hinit'],hopen⟩
      · obtain ⟨rfl,rfl⟩ := Prod.mk.inj (Option.some.inj hu)
        exact ⟨_,by simp [hes],by simp [hinit'],hopen⟩
  | deviceClose r =>
      simp only [perform,World.deviceClose,Option.some.injEq,Prod.mk.injEq] at h
      obtain ⟨rfl,-⟩ := h
      have hnone : ¬Initialises s (.deviceClose r) := by simp [Initialises,Call.initResult]
      split_ifs with hzero hmore hok
      · exact ⟨[],by simp,by simp [hnone],by simp⟩
      · exact ⟨[],by simp,by simp [hnone],by simp⟩
      · exact ⟨[.driverClose r.driverClose],rfl,by simp [hnone],by simp [Event.Transfer]⟩
      · exact ⟨[.driverClose r.driverClose],rfl,by simp [hnone],by simp [Event.Transfer]⟩
  | deviceRead r pos buffer size =>
      simp only [perform,World.deviceRead,Option.some.injEq,Prod.mk.injEq] at h
      obtain ⟨rfl,-⟩ := h
      have hnone : ¬Initialises s (.deviceRead r pos buffer size) := by
        simp [Initialises,Call.initResult]
      split_ifs with hzero
      · exact ⟨_,rfl,by simp [hnone],by simp [Event.Transfer]⟩
      · exact ⟨_,rfl,by simp [hnone],fun _ _ _ => hzero⟩
  | deviceWrite r pos buffer size =>
      simp only [perform,World.deviceWrite,Option.some.injEq,Prod.mk.injEq] at h
      obtain ⟨rfl,-⟩ := h
      have hnone : ¬Initialises s (.deviceWrite r pos buffer size) := by
        simp [Initialises,Call.initResult]
      split_ifs with hzero
      · exact ⟨_,rfl,by simp [hnone],by simp [Event.Transfer]⟩
      · exact ⟨_,rfl,by simp [hnone],fun _ _ _ => hzero⟩

/-- A device in use was activated by its driver, which is never asked for data before that. -/
structure Ready (s : World) : Prop where
  activated : s.refCount ≠ 0 → s.Activated ∧ Initialised s
  served : ∀ before e after, s.events = before++e::after → e.Transfer →
    .driverInit ERR_OK ∈ before

/-- `open` does not report success after its initialisation has failed. -/
def HonestOpen (s : World) : Call → Prop
  | .deviceOpen r oflag => ∀ s', s.deviceOpen r oflag = some (s',ERR_OK) →
      s.Activated ∨ r.driverInit = ERR_OK
  | _ => True

/-- An `open` that the driver agrees to is made on a device that an earlier initialisation has
activated, or its own initialisation succeeds. -/
def OpensInitialised (flags : BitVec 16) (s : World) : Call → Prop
  | .deviceOpen r _ => ¬(s.Standalone ∧ s.Opened) → Succeeds r.driverOpen →
      if s.Activated then flags &&& FLAG_ACTIVATED = 0 else r.driverInit = ERR_OK
  | _ => True

/-- A device is activated by its constructor's flags or by an initialisation that succeeds, and
in the first case the driver's initialisation is never called. -/
structure Origin (flags : BitVec 16) (s : World) : Prop where
  either : s.Activated → flags &&& FLAG_ACTIVATED ≠ 0 ∨ Initialised s
  given : flags &&& FLAG_ACTIVATED ≠ 0 → s.Activated ∧ ¬Initialised s

theorem perform_initialised {s s' : World} {a : Call} {e : Option ℤ}
    (h : perform s a = some (s',e)) : Initialised s' ↔ Initialised s ∨ Initialises s a := by
  obtain ⟨es,hes,hinit,-⟩ := perform_events h
  rw [Initialised,hes,List.mem_append,hinit]
  exact Iff.rfl

theorem perform_activated {s s' : World} {a : Call} {e : Option ℤ}
    (h : perform s a = some (s',e)) : s'.Activated ↔ s.Activated ∨ Initialises s a := by
  have hinit : ∀ r, (s.deviceInit r).1.Activated ↔
      s.Activated ∨ ¬s.Activated ∧ some r.driverInit = some ERR_OK := by
    intro r
    rw [World.deviceInit_activated,Option.some.injEq]
    tauto
  cases a with
  | deviceInit r =>
      obtain ⟨rfl,-⟩ := Prod.mk.inj (Option.some.inj h)
      exact hinit r
  | deviceOpen r oflag =>
      simp only [perform,World.deviceOpen,Option.map_eq_some_iff,Prod.mk.injEq] at h
      obtain ⟨⟨u,v⟩,hu,rfl,rfl⟩ := h
      split_ifs at hu
      all_goals
        obtain ⟨rfl,rfl⟩ := Prod.mk.inj (Option.some.inj hu)
        exact hinit r
  | deviceClose r =>
      simp only [perform,World.deviceClose,Option.some.injEq,Prod.mk.injEq] at h
      obtain ⟨rfl,-⟩ := h
      simp only [Initialises,Call.initResult,reduceCtorEq,and_false,or_false]
      split_ifs <;> exact Iff.rfl
  | deviceRead r pos buffer size =>
      simp only [perform,World.deviceRead,Option.some.injEq,Prod.mk.injEq] at h
      obtain ⟨rfl,-⟩ := h
      simp only [Initialises,Call.initResult,reduceCtorEq,and_false,or_false]
      split_ifs <;> exact Iff.rfl
  | deviceWrite r pos buffer size =>
      simp only [perform,World.deviceWrite,Option.some.injEq,Prod.mk.injEq] at h
      obtain ⟨rfl,-⟩ := h
      simp only [Initialises,Call.initResult,reduceCtorEq,and_false,or_false]
      split_ifs <;> exact Iff.rfl

/-- An `open` that reports a success is one that the driver agreed to. -/
theorem deviceOpen_agreed {s s' : World} {r : Driver} {oflag : BitVec 16}
    (h : s.deviceOpen r oflag = some (s',ERR_OK)) :
    ¬(s.Standalone ∧ s.Opened) ∧ Succeeds r.driverOpen := by
  simp only [World.deviceOpen,World.deviceInit_standalone,World.deviceInit_opened] at h
  split_ifs at h with hbusy hok hwrap
  · exact absurd (Prod.mk.inj (Option.some.inj h)).2 (by decide)
  · exact ⟨hbusy,hok⟩
  · exact absurd (.inl (Prod.mk.inj (Option.some.inj h)).2) hok

/-- Unless the count is used up, an `open` that the driver agrees to counts one more. -/
theorem deviceOpen_counts {s : World} {r : Driver} (hbusy : ¬(s.Standalone ∧ s.Opened))
    (hok : Succeeds r.driverOpen) (hwrap : s.refCount+1 ≠ 0) (oflag : BitVec 16) :
    ∃ s', s.deviceOpen r oflag = some (s',r.driverOpen) ∧ s'.refCount = s.refCount+1 := by
  simp only [World.deviceOpen,World.deviceInit_standalone,World.deviceInit_opened,if_neg hbusy,
    if_pos hok,World.emit_device,World.deviceInit_refCount,if_neg hwrap]
  exact ⟨_,rfl,rfl⟩

theorem Origin.perform {flags : BitVec 16} {s s' : World} {a : Call} {e : Option ℤ}
    (h : Origin flags s) (hp : perform s a = some (s',e)) : Origin flags s' := by
  have hi := perform_initialised hp
  have ha := perform_activated hp
  refine ⟨fun hs => ?_,fun hf => ?_⟩
  · obtain hs | hs := ha.mp hs
    · exact (h.either hs).imp_right fun hs => hi.mpr (.inl hs)
    · exact .inr (hi.mpr (.inr hs))
  · obtain ⟨hs,hn⟩ := h.given hf
    refine ⟨ha.mpr (.inl hs),fun hs' => ?_⟩
    obtain hs' | hs' := hi.mp hs'
    · exact hn hs'
    · exact hs'.1 hs

theorem Ready.perform {flags : BitVec 16} {s s' : World} {a : Call} {e : Option ℤ}
    (h : Ready s) (ho : Origin flags s) (hc : OpensInitialised flags s a)
    (hp : perform s a = some (s',e)) : Ready s' := by
  have hi := perform_initialised hp
  have ha := perform_activated hp
  have hlift : s.Activated ∧ Initialised s → s'.Activated ∧ Initialised s' :=
    fun hs => ⟨ha.mpr (.inl hs.1),hi.mpr (.inl hs.2)⟩
  refine ⟨fun hcount => ?_,fun before v after hv ht => ?_⟩
  · obtain ⟨-,⟨-,hsame⟩ | ⟨r,oflag,rfl,-,hok,hbusy,-⟩ | ⟨r,-,hzero,-⟩ |
      ⟨r,-,-,-,hlast,-⟩⟩ :=
      perform_cases hp
    · exact hlift (h.activated (hsame ▸ hcount))
    · have hready := hc hbusy hok
      split_ifs at hready with hs
      · exact hlift ⟨hs,(ho.either hs).resolve_left (not_not.mpr hready)⟩
      · have hnew : Initialises s (.deviceOpen r oflag) := ⟨hs,congrArg some hready⟩
        exact ⟨ha.mpr (.inr hnew),hi.mpr (.inr hnew)⟩
    · exact hlift (h.activated hzero)
    · exact absurd hlast hcount
  · obtain ⟨es,hes,-,hquiet⟩ := perform_events hp
    rw [hes,List.append_eq_append_iff] at hv
    obtain ⟨ws,rfl,hws⟩ | ⟨ws,hws,hrest⟩ := hv
    · have hserved : v ∈ es := hws ▸ List.mem_append_right ws (List.mem_cons_self ..)
      exact List.mem_append_left ws (h.activated (hquiet v hserved ht)).2
    · cases ws with
      | nil =>
          have hserved : v ∈ es := by simp [← show v::after = es from hrest]
          rw [List.append_nil] at hws
          rw [← hws]
          exact (h.activated (hquiet v hserved ht)).2
      | cons w ws =>
          obtain ⟨rfl,-⟩ := List.cons.inj hrest
          exact h.served before v ws hws ht

theorem opensInitialised_of_ready {flags : BitVec 16} {s : World} {a : Call}
    (ho : Origin flags s) (hr : Ready s) (hnext : ∀ s', step s a = some s' → Ready s') :
    OpensInitialised flags s a := by
  cases a with
  | deviceOpen r oflag =>
      intro hbusy hok
      by_cases hwrap : s.refCount+1 = 0
      · -- the count is used up, so the device has been open and initialised for long
        obtain ⟨hact,hinit⟩ := hr.activated fun hzero => by simp [hzero] at hwrap
        rw [if_pos hact]
        by_contra hflags
        exact (ho.given hflags).2 hinit
      · obtain ⟨s',hopen,hcount⟩ := deviceOpen_counts hbusy hok hwrap oflag
        have hp : perform s (.deviceOpen r oflag) = some (s',some r.driverOpen) := by
          simp [perform,hopen]
        have hready := hnext s' (step_eq_some.mpr ⟨_,hp⟩)
        obtain ⟨hact,hinit⟩ := hready.activated (hcount ▸ hwrap)
        split_ifs with hs
        · by_contra hflags
          exact ((ho.perform hp).given hflags).2 hinit
        · obtain hact | hact := (perform_activated hp).mp hact
          · exact absurd hact hs
          · exact Option.some.inj hact.2
  | _ => trivial

/-- A device that is open is an initialised one in every run just when every `open` that succeeds
finds it so or makes it so. -/
theorem open_device_initialised_iff (memory : Device) (name : Name) (flags : BitVec 16)
    (calls : List Call) :
    Throughout step Ready (.start memory name flags) calls ∧
        AllSteps step HonestOpen (.start memory name flags) calls ↔
      AllSteps step (OpensInitialised flags) (.start memory name flags) calls := by
  have horigin : Origin flags (.start memory name flags) := ⟨.inl,fun hf => ⟨hf,nofun⟩⟩
  have hready : Ready (.start memory name flags) := by
    refine ⟨fun hcount => absurd rfl hcount,fun before e after h => ?_⟩
    simp [World.start] at h
  have hkept : ∀ s a s', Origin flags s → step s a = some s' → Origin flags s' := by
    intro s a s' ho hs
    obtain ⟨e,hp⟩ := step_eq_some.mp hs
    exact ho.perform hp
  constructor
  · rintro ⟨hrun,-⟩
    have hall := hrun.and (throughout_of_step (fun _ => id) hkept calls horigin)
    exact hall.allSteps.mono fun s a h => opensInitialised_of_ready h.1.2 h.1.1 fun s' hs' =>
      (h.2 s' hs').1
  · intro hc
    have hgood : ∀ s a s', Origin flags s ∧ Ready s → OpensInitialised flags s a →
        step s a = some s' → Origin flags s' ∧ Ready s' := by
      rintro s a s' ⟨ho,hr⟩ hopens hs
      obtain ⟨e,hp⟩ := step_eq_some.mp hs
      exact ⟨ho.perform hp,hr.perform ho hopens hp⟩
    refine ⟨throughout_of_invariant (fun s h => h.2) hgood ⟨horigin,hready⟩ hc,
      hc.mono fun s a hopens => ?_⟩
    · cases a with
      | deviceOpen r oflag =>
          intro s' hopen
          obtain ⟨hbusy,hok⟩ := deviceOpen_agreed hopen
          have h := hopens hbusy hok
          split_ifs at h with hs
          · exact .inl hs
          · exact .inr h
      | _ => trivial

/-- The driver's initialisation fails, its `driver_open` does not. -/
def notInitialised : Driver := ⟨-ERR_ERROR,ERR_OK,ERR_OK,16,16⟩

/-- `open` reports success, and the driver is asked for data that it was never prepared for. -/
theorem open_without_init : ∃ s, [.deviceOpen notInitialised 1,
      .deviceRead notInitialised 0 0x1000 16].foldlM step standalone = some s ∧
    (standalone.deviceOpen notInitialised 1).map Prod.snd = some ERR_OK ∧
    s.refCount = 1 ∧ ¬s.Activated ∧ ¬Initialised s ∧ .driverRead 0 0x1000 16 16 ∈ s.events := by
  refine ⟨_,rfl,by decide,by decide,by decide,by decide,by decide⟩

end CosKernel.DeviceStates
