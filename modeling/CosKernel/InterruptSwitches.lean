import CosKernel.ThreadContexts

/-!
# Switches out of an interrupt

While a handler runs, the stacks of the resting threads, their `sp_` and the
frame of the interrupted thread are untouched. The variables tell at most that
the interrupted thread is to be left for the one that the scheduler has made
current last; this is what every call of `process` keeps.
-/
namespace CosKernel.ContextSwitch
open ByteMemory X86 X86.Machine TransitionRuns

variable {θ : Type} {L : Layout θ}

/-- What the variables say, in a handler that interrupted `w₀`. -/
inductive Pending (L : Layout θ) (w₀ w : World θ) : Bool → Prop where
  | no (flag : load w.machine.mem (L.cell .flag) = 0)
      (current : w.currentThread = w₀.currentThread) : Pending L w₀ w false
  | yes (r t : θ) (running : w₀.running = some r)
      (flag : load w.machine.mem (L.cell .flag) = 1)
      (fromThread : load w.machine.mem (L.cell .fromThread) = L.cell (.sp r))
      (toThread : load w.machine.mem (L.cell .toThread) = L.cell (.sp t))
      (current : w.currentThread = some t) (exist : Exists w₀ t) : Pending L w₀ w true

/-- The thread `r` runs and has room for the frame of an interrupt. -/
structure Interrupted (L : Layout θ) (w₀ : World θ) (r : θ) : Prop where
  current : w₀.currentThread = some r
  running : w₀.running = some r
  resting : w₀.resting r = none
  saved : saved w₀ ⊆ L.stack r

/-- The state in a handler that interrupted `w₀`. -/
structure Handling (L : Layout θ) (w₀ w : World θ) (requested : Bool) : Prop where
  running : w.running = w₀.running
  resting : w.resting = w₀.resting
  nest : w.interruptNest = 1
  onStack : ∀ t, w₀.resting t ≠ none → Set.EqOn w.machine.mem w₀.machine.mem (L.stack t)
  sp : ∀ t, Set.EqOn w.machine.mem w₀.machine.mem (span (L.cell (.sp t)) 4)
  frame : FrameOf w.machine.mem (w₀.machine.reg .esp-56) w₀.machine.toCpu
  address : load w.machine.mem (w₀.machine.reg .esp-60) = w₀.machine.reg .esp-56
  pending : Pending L w₀ w requested

theorem frame_saved (w : World θ) : span (w.machine.reg .esp-56) 56 ⊆ saved w :=
  span_subset (by bv_omega)

theorem address_saved (w : World θ) : span (w.machine.reg .esp-60) 4 ⊆ saved w :=
  span_mono (by decide)

theorem Pending.congr {w₀ w w' : World θ} {b : Bool} (H : Pending L w₀ w b)
    (hcurrent : w'.currentThread = w.currentThread)
    (hcells : ∀ c, Set.EqOn w'.machine.mem w.machine.mem (span (L.cell c) 4)) :
    Pending L w₀ w' b := by
  cases H with
  | no hflag hc => exact .no ((load_congr (hcells _)).trans hflag) (hcurrent.trans hc)
  | yes r t hr hflag hfrom hto hc ht =>
      exact .yes r t hr ((load_congr (hcells _)).trans hflag) ((load_congr (hcells _)).trans hfrom)
        ((load_congr (hcells _)).trans hto) (hcurrent.trans hc) ht

/-- Code of the handler. -/
theorem Handling.code {w₀ w : World θ} {b : Bool} {m : Machine} (H : Handling L w₀ w b)
    (h : Keeps L w (saved w₀) w.machine.mem m.mem) :
    Handling L w₀ {w with machine := m} b := by
  refine ⟨H.running,H.resting,H.nest,?_,?_,?_,?_,H.pending.congr rfl h.cells⟩
  · intro t ht
    have ht' : w.resting t ≠ none := by rwa [H.resting]
    exact (h.onStack t ht').trans (H.onStack t ht)
  · exact fun t => (h.cells (.sp t)).trans (H.sp t)
  · exact H.frame.congr (h.keep.mono (frame_saved w₀)).symm
  · exact (load_congr (h.keep.mono (address_saved w₀))).trans H.address

/-- A call of `arch_context_switch_interrupt` writes to the sixteen bytes below the stack pointer
and to the three variables. -/
theorem request_spec (m : Machine) {r : θ} (from_ next : θ) (ret : Dword)
    (hroom : span (m.reg .esp-16) 16 ⊆ L.stack r) :
    ∃ m', archContextSwitchInterrupt L.globals
        (World.called m [L.cell (.sp from_),L.cell (.sp next)] ret) = m' ∧
      (∀ S, Disjoint S (span (m.reg .esp-16) 16) →
        (∀ c, (∀ t, c ≠ .sp t) → Disjoint S (span (L.cell c) 4)) → Set.EqOn m'.mem m.mem S) ∧
      load m'.mem (L.cell .flag) = 1 ∧ load m'.mem (L.cell .toThread) = L.cell (.sp next) ∧
      load m'.mem (L.cell .fromThread) = if load m.mem (L.cell .flag) = 1
        then load m.mem (L.cell .fromThread) else L.cell (.sp from_) := by
  obtain ⟨hstack,hesp,hargs⟩ := called_spec m [L.cell (.sp from_),L.cell (.sp next)] ret (by simp)
  obtain ⟨m₁,hm₁⟩ : ∃ m₁, World.called m [L.cell (.sp from_),L.cell (.sp next)] ret = m₁ := ⟨_,rfl⟩
  rw [hm₁] at hstack hesp hargs ⊢
  change m₁.reg .esp = m.reg .esp-12 at hesp
  change Set.EqOn m₁.mem m.mem (span (m.reg .esp-12) 12)ᶜ at hargs
  have hvariables : ∀ a ∈ L.globals.variables, ∃ c, a = L.cell c ∧ ∀ t, c ≠ .sp t := by
    intro a ha
    simp only [Globals.variables,Layout.globals,List.mem_cons,List.not_mem_nil,or_false] at ha
    rcases ha with rfl | rfl | rfl
    · exact ⟨.flag,rfl,by simp⟩
    · exact ⟨.fromThread,rfl,by simp⟩
    · exact ⟨.toThread,rfl,by simp⟩
  have hfree : ∀ a ∈ L.globals.variables, Disjoint (span (m₁.reg .esp-4) 8) (span a 4) := by
    intro a ha
    obtain ⟨c,rfl,-⟩ := hvariables a ha
    rw [hesp]
    exact (L.stack_cell r c).mono_left ((span_subset (by bv_omega)).trans hroom)
  obtain ⟨m',hcall,-,-,-,-,-,-,hmem⟩ := archContextSwitchInterrupt_spec hstack hfree
  obtain ⟨mem,hmem₁⟩ : ∃ mem, mem = store m₁.mem (m₁.reg .esp-4) (m₁.reg .ebp) := ⟨_,rfl⟩
  rw [← hmem₁] at hmem
  have hbelow : ∀ S, Disjoint S (span (m.reg .esp-16) 16) → Set.EqOn mem m.mem S := by
    intro S hS x hx
    have hout : ¬ (x-(m.reg .esp-16)).toNat < 16 := Set.disjoint_left.mp hS hx
    have hfirst : x ∉ span (m₁.reg .esp-4) 4 := by
      rw [hesp,mem_span]
      bv_omega
    have hsecond : x ∉ span (m.reg .esp-12) 12 := by
      rw [mem_span]
      bv_omega
    rw [hmem₁]
    exact (if_neg hfirst).trans (hargs hsecond)
  have hcell : ∀ c : Cell θ, load mem (L.cell c) = load m.mem (L.cell c) := fun c =>
    load_congr (hbelow _ ((L.stack_cell r c).mono_left hroom).symm)
  obtain ⟨hflag,hto,hfrom⟩ := load_noted (g := L.globals) mem (L.cell (.sp from_))
    (L.cell (.sp next)) (L.cells_apart .flag .fromThread (by simp))
    (L.cells_apart .flag .toThread (by simp)) (L.cells_apart .fromThread .toThread (by simp))
  rw [← hmem] at hflag hto hfrom
  refine ⟨m',hcall,?_,hflag,hto,?_⟩
  · intro S hS hcells
    rw [hmem]
    refine (noted_eqOn ?_).trans (hbelow S hS)
    intro a ha
    obtain ⟨c,rfl,hc⟩ := hvariables a ha
    exact hcells c hc
  · rw [← hcell .flag,← hcell .fromThread]
    exact hfrom

/-- A call of `process` that finds another thread. -/
theorem Handling.request {w₀ w : World θ} {b : Bool} {r from_ next : θ} (H : Handling L w₀ w b)
    (K : Interrupted L w₀ r) (hcurrent : w.currentThread = some from_) (hnext : Exists w₀ next)
    (hroom : span (w.machine.reg .esp-16) 16 ⊆ L.stack r \ saved w₀) (ret : Dword) :
    Handling L w₀ {w with
      currentThread := some next
      machine := archContextSwitchInterrupt L.globals
        (World.called w.machine [L.cell (.sp from_),L.cell (.sp next)] ret)} true := by
  have hown : span (w.machine.reg .esp-16) 16 ⊆ L.stack r := hroom.trans Set.sdiff_subset
  obtain ⟨m',hcall,hkept,hflag,hto,hfrom⟩ := request_spec w.machine from_ next ret hown
  rw [hcall]
  have hframe : Set.EqOn m'.mem w.machine.mem (saved w₀) := by
    apply hkept
    · rw [Set.disjoint_left]
      exact fun x hx hx' => (hroom hx').2 hx
    · exact fun c _ => (L.stack_cell r c).mono_left K.saved
  refine ⟨H.running,H.resting,H.nest,?_,?_,?_,?_,?_⟩
  · intro t ht
    have htr : t ≠ r := by
      rintro rfl
      exact ht K.resting
    refine (hkept _ ?_ fun c _ => L.stack_cell t c).trans (H.onStack t ht)
    exact (L.stacks_apart t r htr).mono_right hown
  · intro t
    refine (hkept _ ?_ fun c hc => L.cells_apart _ _ (Ne.symm (hc t))).trans (H.sp t)
    exact ((L.stack_cell r (.sp t)).mono_left hown).symm
  · exact H.frame.congr (hframe.mono (frame_saved w₀)).symm
  · exact (load_congr (hframe.mono (address_saved w₀))).trans H.address
  · refine .yes r next K.running hflag (hfrom.trans ?_) hto rfl hnext
    cases H.pending with
    | no hzero hc =>
        -- the thread that is left first is the interrupted one
        rw [if_neg (by rw [hzero]; decide)]
        rw [hc,K.current] at hcurrent
        rw [Option.some.inj hcurrent]
    | yes r' t hr' hone hfrom' hto' hc ht =>
        rw [if_pos hone,hfrom']
        rw [K.running] at hr'
        rw [Option.some.inj hr']

/-- The state in which the handler is called. -/
theorem Settled.handling {w : World θ} {r : θ} {irqno : Dword} {m₁ : Machine} (H : Settled L w)
    (K : Interrupted L w r) (hroom : span (w.machine.reg .esp-68) 68 ⊆ L.stack r)
    (h : Returns L w (saved w) (run (interruptEntry irqno) (deliver w.machine)) m₁) :
    Handling L w (w.handling L m₁) false := by
  obtain ⟨m,hentry,hesp,haddress,hframe,hmem⟩ := interruptEntry_spec w.machine irqno
  rw [hentry] at h
  obtain ⟨-,hdispatch⟩ := dispatch_spec (g := L.globals) m₁
  have hesp₁ : m₁.reg .esp-8 = w.machine.reg .esp-68 := by
    rw [h.esp,hesp]
    bv_omega
  rw [hesp₁] at hdispatch
  have hpushed : span (w.machine.reg .esp-68) 8 ⊆ L.stack r := (span_mono (by decide)).trans hroom
  have hothers : ∀ S, Disjoint S (L.stack r) → Set.EqOn m₁.mem m.mem S →
      Set.EqOn (w.handling L m₁).machine.mem w.machine.mem S := by
    intro S hS hcode
    apply (hdispatch.mono (hS.mono_right hpushed).subset_compl_right).trans
    exact hcode.trans (hmem.mono (hS.mono_right K.saved).subset_compl_right)
  have hsaved : Set.EqOn (w.handling L m₁).machine.mem m.mem (saved w) := by
    refine (hdispatch.mono fun x hx => ?_).trans h.keeps.keep
    rw [saved,mem_span] at hx
    rw [Set.mem_compl_iff,mem_span]
    bv_omega
  refine ⟨rfl,rfl,?_,?_,?_,?_,?_,?_⟩
  · change w.interruptNest+1 = 1
    rw [H.nest]
    rfl
  · intro t ht
    have htr : t ≠ r := by
      rintro rfl
      exact ht K.resting
    exact hothers _ (L.stacks_apart t r htr) (h.keeps.onStack t ht)
  · exact fun t => hothers _ (L.stack_cell r _).symm (h.keeps.cells _)
  · exact hframe.congr (hsaved.mono (frame_saved w)).symm
  · exact (load_congr (hsaved.mono (address_saved w))).trans haddress
  · refine .no ?_ rfl
    exact (load_congr (hothers _ (L.stack_cell r _).symm (h.keeps.cells _))).trans H.flag

variable [DecidableEq θ]

/-- Some call of `process` finds another thread than the current one. -/
def requests : Option θ → List (Event θ) → Bool
  | _,[] => false
  | c,.code _::es => requests c es
  | c,.process lockNest next _::es =>
      if lockNest = 0 ∧ c ≠ some next then true else requests c es

theorem Handling.events {w₀ w : World θ} {b : Bool} {r : θ} {es : List (Event θ)}
    (H : Handling L w₀ w b) (K : Interrupted L w₀ r)
    (h : AllSteps (World.event L) (LegalEvent L (saved w₀)) w es) :
    ∃ w', es.foldlM (World.event L) w = some w' ∧
      Handling L w₀ w' (b || requests w.currentThread es) := by
  induction es generalizing w b with
  | nil => exact ⟨w,rfl,by simpa [requests] using H⟩
  | cons e es ih =>
      cases e with
      | code m =>
          obtain ⟨w',hw',H'⟩ := ih (H.code h.1) (h.2 _ rfl)
          exact ⟨w',hw',H'⟩
      | process lockNest next ret =>
          by_cases hchange : lockNest = 0 ∧ w.currentThread ≠ some next
          · obtain ⟨from_,hfrom⟩ : ∃ f, w.currentThread = some f := by
              cases H.pending with
              | no _ hc => exact ⟨r,hc.trans K.current⟩
              | yes _ t _ _ _ _ hc _ => exact ⟨t,hc⟩
            have hnext : Exists w₀ next := by
              have := h.1.1
              rwa [Exists,H.resting,H.running] at this
            obtain ⟨r',hr',hroom⟩ := h.1.2
            rw [H.running,K.running] at hr'
            cases hr'
            have H₁ := H.request K hfrom hnext hroom ret
            have hstep : w.event L (.process lockNest next ret) = some {w with
                currentThread := some next
                machine := archContextSwitchInterrupt L.globals
                  (World.called w.machine [L.cell (.sp from_),L.cell (.sp next)] ret)} := by
              have hnest : w.interruptNest ≠ 0 := by
                rw [H.nest]
                decide
              exact (World.process_other hchange hfrom).trans (congrArg some (if_neg hnest))
            obtain ⟨w',hw',H'⟩ := ih H₁ (h.2 _ hstep)
            refine ⟨w',?_,?_⟩
            · rw [List.foldlM_cons,hstep]
              exact hw'
            · simpa [requests,hchange] using H'
          · have hstep : w.event L (.process lockNest next ret) = some w :=
              World.process_same hchange
            obtain ⟨w',hw',H'⟩ := ih H (h.2 _ hstep)
            refine ⟨w',?_,?_⟩
            · rw [List.foldlM_cons,hstep]
              exact hw'
            · rw [requests,if_neg hchange]
              exact H'

/-- The end of an interrupt of `w`, with or without a request to leave the thread `r`. -/
structure Deferred (L : Layout θ) (w w' : World θ) (r t : θ) (requested : Bool) : Prop where
  current : w'.currentThread = some t
  running : w'.running = some t
  flag : load w'.machine.mem (L.cell .flag) = 0
  same : requested = false → t = r ∧ w'.machine.toCpu = w.machine.toCpu ∧
    ∀ u, load w'.machine.mem (L.cell (.sp u)) = load w.machine.mem (L.cell (.sp u))
  stored : requested = true →
    load w'.machine.mem (L.cell (.sp r)) = w.machine.reg .esp-56 ∧
    FrameOf w'.machine.mem (w.machine.reg .esp-56) w.machine.toCpu ∧
    (∀ u, u ≠ r → load w'.machine.mem (L.cell (.sp u)) = load w.machine.mem (L.cell (.sp u))) ∧
    w'.machine.reg .esp = load w'.machine.mem (L.cell (.sp t))+56

omit [DecidableEq θ] in
theorem Handling.rest {w₀ w : World θ} {b : Bool} (H : Handling L w₀ w b) (K : Settled L w₀)
    {t : θ} {s : Rest} (hs : w₀.resting t = some s) : Resting L w.machine.mem t s := by
  have ht : w₀.resting t ≠ none := by simp [hs]
  exact (K.rest t s hs).congr (H.onStack t ht) (H.sp t)

omit [DecidableEq θ] in
theorem Handling.top {w₀ w : World θ} {b : Bool} (H : Handling L w₀ w b)
    (hesp : w.machine.reg .esp = w₀.machine.reg .esp-60) :
    w.machine.top = w₀.machine.reg .esp-56 := by
  rw [Machine.top,hesp]
  exact H.address

/-- What is promised of the end of an interrupt. -/
structure Finished (L : Layout θ) (w w' : World θ) (r t : θ) (requested : Bool) : Prop where
  settled : Settled L w'
  deferred : Deferred L w w' r t requested
  resumed : ∀ s, w.resting t = some s → w'.machine.toCpu = s.origin.cpu ∧
    Set.EqOn w'.machine.mem s.image (L.stack t)

theorem Handling.resume {w₀ w : World θ} {r : θ} (H : Handling L w₀ w false) (K : Settled L w₀)
    (I : Interrupted L w₀ r) (hesp : w.machine.reg .esp = w₀.machine.reg .esp-60) :
    Finished L w₀ (w.leaving L w₀.machine) r r false := by
  cases H.pending with
  | no hflag hcurrent =>
      have hne : load w.machine.mem (L.cell .flag) ≠ 1 := by
        rw [hflag]
        decide
      have hreturn : interruptReturn L.globals w.machine =
          {w₀.machine.toCpu with mem := w.machine.mem} :=
        interruptReturn_same (H.top hesp) hne H.frame
      have hzf : (run (testFlag L.globals) w.machine).zf = false := by
        rw [(testFlag_spec w.machine).1]
        exact beq_eq_false_iff_ne.mpr hne
      have hleave : w.leaving L w₀.machine = {w with
          machine := {w₀.machine.toCpu with mem := w.machine.mem}
          interruptNest := w.interruptNest-1} := by
        unfold World.leaving
        rw [hzf,hreturn]
        rfl
      rw [hleave]
      refine ⟨⟨?_,?_,hflag,?_,?_⟩,⟨hcurrent.trans I.current,?_,hflag,?_,by simp⟩,?_⟩
      · exact hcurrent.trans (K.current.trans H.running.symm)
      · change w.interruptNest-1 = 0
        rw [H.nest]
        rfl
      · intro t ht
        change w.resting t ≠ none at ht
        rw [H.resting] at ht
        change w.running ≠ some t
        rw [H.running]
        exact K.apart t ht
      · intro t s hs
        change w.resting t = some s at hs
        rw [H.resting] at hs
        exact H.rest K hs
      · exact H.running.trans I.running
      · exact fun _ => ⟨rfl,rfl,fun u => load_congr (H.sp u)⟩
      · intro s hs
        rw [I.resting] at hs
        cases hs

/-- The memory after a return that leaves the thread `r`: the flag is cleared, and the stack pointer
of `r` stored. -/
def Layout.left (L : Layout θ) (r : θ) (sp : Dword) (mem : Memory) : Memory :=
  store (store mem (L.cell .flag) 0) (L.cell (.sp r)) sp

section left

variable {r u : θ} {sp : Dword} {mem : Memory}

omit [DecidableEq θ]

theorem left_eqOn {S : Set Dword} (hflag : Disjoint S (span (L.cell .flag) 4))
    (hsp : Disjoint S (span (L.cell (.sp r)) 4)) : Set.EqOn (L.left r sp mem) mem S :=
  (store_eqOn hsp).trans (store_eqOn hflag)

theorem left_stack : Set.EqOn (L.left r sp mem) mem (L.stack u) :=
  left_eqOn (L.stack_cell u _) (L.stack_cell u _)

theorem left_sp (hu : u ≠ r) : Set.EqOn (L.left r sp mem) mem (span (L.cell (.sp u)) 4) :=
  left_eqOn (L.cells_apart _ _ (by simp)) (L.cells_apart _ _ (by simpa using hu))

theorem load_left_toThread : load (L.left r sp mem) (L.cell .toThread) = load mem (L.cell .toThread) :=
  load_congr (left_eqOn (L.cells_apart _ _ (by simp)) (L.cells_apart _ _ (by simp)))

theorem load_left_sp : load (L.left r sp mem) (L.cell (.sp r)) = sp := load_store _ _ _

theorem load_left_flag : load (L.left r sp mem) (L.cell .flag) = 0 := by
  rw [Layout.left,load_store_of_disjoint (L.cells_apart .flag (.sp r) (by simp))]
  exact load_store _ _ _

end left

omit [DecidableEq θ] in
/-- The frame of the interrupted thread survives the return that leaves it. -/
theorem Handling.frame_left {w₀ w : World θ} {r : θ} {b : Bool} (H : Handling L w₀ w b)
    (I : Interrupted L w₀ r) :
    FrameOf (L.left r (w₀.machine.reg .esp-56) w.machine.mem) (w₀.machine.reg .esp-56)
      w₀.machine.toCpu :=
  H.frame.congr (left_stack.mono ((frame_saved w₀).trans I.saved)).symm

omit [DecidableEq θ] in
/-- The other threads rest as before. -/
theorem Handling.rest_left {w₀ w : World θ} {r u : θ} {s : Rest} {sp : Dword} {b : Bool}
    (H : Handling L w₀ w b) (K : Settled L w₀) (hu : u ≠ r) (hs : w₀.resting u = some s) :
    Resting L (L.left r sp w.machine.mem) u s :=
  (H.rest K hs).congr left_stack (left_sp hu)

omit [DecidableEq θ] in
/-- The frame of the thread that follows: of the interrupted thread itself, or of a resting one. -/
theorem Handling.next_frame {w₀ w : World θ} {r t : θ} {b : Bool} (H : Handling L w₀ w b)
    (K : Settled L w₀) (I : Interrupted L w₀ r) (ht : Exists w₀ t) {mem : Memory}
    (hmem : mem = L.left r (w₀.machine.reg .esp-56) w.machine.mem) :
    ∃ c, FrameOf mem (load mem (L.cell (.sp t))) c ∧
      ∀ s, w₀.resting t = some s → c = s.origin.cpu ∧ Set.EqOn mem s.image (L.stack t) := by
  subst hmem
  by_cases htr : t = r
  · subst htr
    refine ⟨w₀.machine.toCpu,?_,fun s hs => ?_⟩
    · rw [load_left_sp]
      exact H.frame_left I
    · rw [I.resting] at hs
      cases hs
  · obtain ⟨s,hs⟩ : ∃ s, w₀.resting t = some s := by
      apply Option.ne_none_iff_exists'.mp
      refine ht.resolve_right fun h => htr ?_
      exact Option.some.inj (h.symm.trans I.running)
    have hrest : Resting L (L.left r (w₀.machine.reg .esp-56) w.machine.mem) t s := H.rest_left K htr hs
    refine ⟨s.origin.cpu,hrest.frameOf,fun s' hs' => ?_⟩
    rw [hs] at hs'
    cases hs'
    exact ⟨rfl,hrest.image⟩

theorem Handling.leave {w₀ w : World θ} {r : θ} (H : Handling L w₀ w true) (K : Settled L w₀)
    (I : Interrupted L w₀ r) (hesp : w.machine.reg .esp = w₀.machine.reg .esp-60) :
    ∃ t, Finished L w₀ (w.leaving L w₀.machine) r t true := by
  cases H.pending with
  | yes r' t hr' hflag hfrom hto hcurrent ht =>
      rw [I.running] at hr'
      cases hr'
      obtain ⟨mem,hmem⟩ : ∃ mem, mem = L.left r (w₀.machine.reg .esp-56) w.machine.mem := ⟨_,rfl⟩
      have hto' : load mem (L.cell .toThread) = L.cell (.sp t) := by
        rw [hmem,load_left_toThread]
        exact hto
      obtain ⟨c,hnext,hc⟩ := H.next_frame K I ht hmem
      have hreturn : interruptReturn L.globals w.machine = {c with mem := mem} := by
        refine interruptReturn_switch (H.top hesp) hflag ?_ ?_
        · have hload : load (store w.machine.mem (L.cell .flag) 0) (L.cell .fromThread) =
              L.cell (.sp r) := by
            rw [load_store_of_disjoint (L.cells_apart .fromThread .flag (by simp))]
            exact hfrom
          rw [hmem,Layout.left,← hload]
          rfl
        · change FrameOf mem (load mem (load mem (L.cell .toThread))) c
          rw [hto']
          exact hnext
      have hzf : (run (testFlag L.globals) w.machine).zf = true := by
        rw [(testFlag_spec w.machine).1]
        exact beq_iff_eq.mpr hflag
      have hleave : w.leaving L w₀.machine = World.handOver
          {w with
            machine := {c with mem := mem}
            interruptNest := w.interruptNest-1} (.interrupted w₀.machine) {c with mem := mem}
          (some t) := by
        unfold World.leaving
        rw [hzf,hreturn,hto,L.threadAt_sp]
        rfl
      have hflag' : load mem (L.cell .flag) = 0 := by
        rw [hmem]
        exact load_left_flag
      have hsaved := (frame_saved w₀).trans I.saved
      rw [hleave]
      refine ⟨t,settled_handOver hcurrent ?_ hflag' ?_ ?_,⟨hcurrent,rfl,hflag',by simp,?_⟩,hc⟩
      · change w.interruptNest-1 = 0
        rw [H.nest]
        rfl
      · intro u s _ hu hs
        change w.running ≠ some u at hu
        change w.resting u = some s at hs
        rw [H.running,I.running] at hu
        rw [H.resting] at hs
        change Resting L mem u s
        rw [hmem]
        exact H.rest_left K (fun e => hu (by rw [e])) hs
      · intro u _ hu
        change w.running = some u at hu
        rw [H.running,I.running] at hu
        cases hu
        refine resting_stored hmem hsaved (H.frame.congr ?_) ?_
        · exact (store_eqOn ((L.stack_cell r _).mono_left hsaved)).symm
        · intro _ _ _ _ e
          cases e
      · refine fun _ => ⟨?_,?_,fun u hu => ?_,hnext.esp⟩
        · change load mem (L.cell (.sp r)) = _
          rw [hmem]
          exact load_left_sp
        · change FrameOf mem _ _
          rw [hmem]
          exact H.frame_left I
        · change load mem (L.cell (.sp u)) = _
          rw [hmem]
          exact (load_congr (left_sp hu)).trans (load_congr (H.sp u))

theorem Settled.interrupt {w : World θ} {irqno : Dword} {m₁ m₃ : Machine} {isr : List (Event θ)}
    (H : Settled L w) (h : Legal L w (.interrupt irqno m₁ isr m₃)) :
    ∃ r t w', w.currentThread = some r ∧ w.interrupt L m₁ isr m₃ = some w' ∧
      Finished L w w' r t (requests (some r) isr) := by
  obtain ⟨⟨r,hr,hroom⟩,henter,hevents,hleave⟩ := h
  rw [Set.sdiff_empty] at hroom
  have hsaved : saved w ⊆ L.stack r := by
    refine subset_trans ?_ hroom
    apply span_subset
    bv_omega
  have hcurrent : w.currentThread = some r := H.current.trans hr
  have hresting : w.resting r = none := by
    by_contra hne
    exact H.apart r hne hr
  have I : Interrupted L w r := ⟨hcurrent,hr,hresting,hsaved⟩
  obtain ⟨w₂,hw₂,H₂⟩ := (H.handling I hroom henter).events I hevents
  obtain ⟨hesp₂,hreturn⟩ := hleave w₂ hw₂
  have hesp : m₃.reg .esp = w.machine.reg .esp-60 := by
    have hadd : (run [.addlImm 8 .esp] w₂.machine).reg .esp = w₂.machine.reg .esp+8 := rfl
    rw [hreturn.esp,hadd,hesp₂]
    bv_omega
  have H₃ := H₂.code hreturn.keeps
  have hrequests : requests (w.handling L m₁).currentThread isr = requests (some r) isr := by
    rw [← hcurrent]
    rfl
  rw [Bool.false_or,hrequests] at H₃
  have hstep : w.interrupt L m₁ isr m₃ = some ({w₂ with machine := m₃}.leaving L w.machine) := by
    rw [World.interrupt,hw₂]
    rfl
  cases hb : requests (some r) isr with
  | false =>
      rw [hb] at H₃
      refine ⟨r,r,_,hcurrent,hstep,?_⟩
      rw [hb]
      exact H₃.resume H I hesp
  | true =>
      rw [hb] at H₃
      obtain ⟨t,ht⟩ := H₃.leave H I hesp
      refine ⟨r,t,_,hcurrent,hstep,?_⟩
      rw [hb]
      exact ht

/-- A thread that runs again has the registers that belong to how it came to rest. -/
def Resumed (L : Layout θ) (w w' : World θ) : Prop :=
  ∀ t s, w.resting t = some s → w'.running = some t →
    w'.machine.toCpu = s.origin.cpu ∧ Set.EqOn w'.machine.mem s.image (L.stack t)

omit [DecidableEq θ] in
theorem Settled.resumed_same {w w' : World θ} (H : Settled L w) (h : w'.running = w.running) :
    Resumed L w w' := by
  intro t s hs ht
  rw [h] at ht
  exact absurd ht (H.apart t (by simp [hs]))

/-- What an interrupt owes to the thread that it interrupts. -/
def InterruptExact (L : Layout θ) (w : World θ) : Action θ → World θ → Prop
  | .interrupt _ _ isr _,w' => ∃ r t, w.currentThread = some r ∧
      Deferred L w w' r t (requests (some r) isr)
  | _,_ => True

theorem Settled.step {w : World θ} {a : Action θ} (H : Settled L w) (h : Legal L w a) :
    ∃ w', w.step L a = some w' ∧ (Resumed L w w' ∧ InterruptExact L w a w') ∧ Settled L w' := by
  cases a with
  | code m => exact ⟨_,rfl,⟨H.resumed_same rfl,trivial⟩,H.keeps h⟩
  | create t tentry parameter stackAddr texit =>
      exact ⟨_,rfl,⟨H.resumed_same rfl,trivial⟩,H.create h.1 h.2 tentry parameter texit⟩
  | start t ret =>
      obtain ⟨hr,ht,hstacks,hcells⟩ := h
      obtain ⟨s,hs⟩ := Option.ne_none_iff_exists'.mp ht
      obtain ⟨hcpu,himage,hsettled⟩ := H.start hr hs hstacks hcells ret
      refine ⟨_,rfl,⟨?_,trivial⟩,hsettled⟩
      intro u v hv hu
      have hut : some t = some u := by
        rw [← L.threadAt_sp t]
        exact hu
      cases hut
      rw [hs] at hv
      cases hv
      exact ⟨hcpu,himage⟩
  | process lockNest next ret =>
      obtain ⟨hnext,r,hr,hroom⟩ := h
      rw [Set.sdiff_empty] at hroom
      have hcurrent : w.currentThread = some r := H.current.trans hr
      by_cases hchange : lockNest = 0 ∧ w.currentThread ≠ some next
      · obtain ⟨s,hs⟩ : ∃ s, w.resting next = some s := by
          apply Option.ne_none_iff_exists'.mp
          exact hnext.resolve_right fun h => hchange.2 (H.current.trans h)
        obtain ⟨m,m',hm,hm',hcpu,himage,hsettled⟩ := H.switch hr hs hroom ret
        refine ⟨_,?_,⟨?_,trivial⟩,hsettled⟩
        · rw [World.step,World.process_other hchange hcurrent,hm,← hm']
          exact congrArg some (if_pos H.nest)
        · intro u v hv hu
          cases hu
          rw [hs] at hv
          cases hv
          exact ⟨hcpu,himage⟩
      · exact ⟨w,World.process_same hchange,⟨H.resumed_same rfl,trivial⟩,H⟩
  | interrupt irqno m₁ isr m₃ =>
      obtain ⟨r,t,w',hcurrent,hstep,F⟩ := H.interrupt h
      refine ⟨w',hstep,⟨?_,r,t,hcurrent,F.deferred⟩,F.settled⟩
      intro u s hs hu
      have hut : some t = some u := F.deferred.running.symm.trans hu
      cases hut
      exact F.resumed s hs

end CosKernel.ContextSwitch
