import CosKernel.SchedulerInvariant
import CosKernel.SemaphoreLock
import CosKernel.SlabHeap

/-!
# The lock of the heap

The calls of the heap take and release `heap_sem` in pairs, with one exception. When
`kmalloc` needs pages for a new zone it gives the lock back first, and if there are none it
goes to the label `fail`, where the lock is released a second time.
-/
namespace CosKernel.HeapLock
open LockedPrograms LockedPrograms.Program Heap SlabHeap SemaphoreLock TransitionRuns

/-- The call with `Runtime::down_flag` set. Its result is not looked at. -/
def program (fuel : ℕ) (c : Heap.Call) : HeapProgram Unit := do
  let _ ← c.program fuel true
  pure ()

/-- The size for which the call asks `kmalloc`, if it does. -/
def request (h : SlabHeap) : Heap.Call → Option Word
  | .kmalloc size => some size
  | .kcalloc count size => some (count*size)
  | .krealloc ptr size =>
      let usage := h.mem (h.btokup (ptr &&& ~~~CONFIG_MM_PAGE_MASK))
      if ptr = 0 then some size
      else if size = 0 then none
      else if usageType usage = PAGE_TYPE_LARGE then some size
      else if usageType usage = PAGE_TYPE_SMALL ∧
          h.zone (h.zoneOf ptr) .magic = ZALLOC_SLAB_MAGIC ∧
          h.zone (h.zoneOf ptr) .chunksize ≠ (zoneindex size).1 then some (zoneindex size).1
      else none
  | .kfree _ | .page_alloc _ | .get_zeroed_pages _ | .page_free _ _ | .write _ _ => none

/-- A chunk of this size needs a new zone, and there are no pages for it. -/
def ZoneExhausted (fuel : ℕ) (size : Word) (h : SlabHeap) : Prop :=
  size ≠ 0 ∧ size < h.zoneLimit ∧
    (∃ i, index (zoneindex size).2 = some i ∧ h.zoneArray i = 0) ∧ h.zoneFree = 0 ∧
    ∃ h', (Heap.page_alloc fuel true (h.zoneSize/CONFIG_MM_PAGE_SIZE)).run h = some (0,h')

section guarded

variable {bad : Site → Prop} {held : Bool} {A : Type} {fuel : ℕ}

@[simp] theorem guarded_lock {Q : Unit → Bool → Prop} :
    (lock true).Guarded bad Q held ↔ held = false ∧ Q () true := Iff.rfl

@[simp] theorem guarded_unlock {Q : Unit → Bool → Prop} {site : Site} :
    (unlock true site).Guarded bad Q held ↔
      bad site ∧ held = false ∨ ¬bad site ∧ held = true ∧ Q () false := Iff.rfl

/-- Only the release at the label `fail` may be bad. -/
def OnlyFail (bad : Site → Prop) : Prop := ∀ site, bad site → site = .kmallocFail

variable (hbad : OnlyFail bad)

include hbad

theorem OnlyFail.not {site : Site} (h : site ≠ .kmallocFail) : ¬bad site := fun hs => h (hbad site hs)

theorem guarded_page_alloc {Q : Word → Bool → Prop} (hQ : ∀ b, Q b false) (npages : Word) :
    (Heap.page_alloc fuel true npages).Guarded bad Q false := by
  have hsite : ¬bad .pageAlloc := hbad.not (by decide)
  unfold Heap.page_alloc
  split
  · exact hQ 0
  · simp [guarded_bind,hsite,hQ]

theorem guarded_get_zeroed_pages {Q : Word → Bool → Prop} (hQ : ∀ b, Q b false) (npages : Word) :
    (Heap.get_zeroed_pages fuel true npages).Guarded bad Q false := by
  unfold Heap.get_zeroed_pages
  rw [guarded_bind]
  apply guarded_page_alloc hbad
  intro b
  split
  · simp [guarded_bind,hQ]
  · exact hQ b

theorem guarded_page_free {Q : Unit → Bool → Prop} (hQ : Q () false) (addr npages : Word) :
    (Heap.page_free fuel true addr npages).Guarded bad Q false := by
  have hsite : ¬bad .pageFree := hbad.not (by decide)
  unfold Heap.page_free
  split
  · exact fun _ => hQ
  · simp [guarded_bind,hsite,hQ]

theorem guarded_kmallocLarge {Q : Word → Bool → Prop} (hQ : ∀ b, Q b false) (size : Word) :
    (kmallocLarge fuel true size).Guarded bad Q false := by
  have hsite : ¬bad .kmallocDone := hbad.not (by decide)
  unfold kmallocLarge
  rw [guarded_bind]
  apply guarded_page_alloc hbad
  intro chunk
  split
  · exact hQ 0
  · simp [guarded_bind,hsite,hQ]

theorem guarded_kfree {Q : Unit → Bool → Prop} (hQ : Q () false) (ptr : Word) :
    (Heap.kfree fuel true ptr).Guarded bad Q false := by
  have hlarge : ¬bad .kfreeLarge := hbad.not (by decide)
  have hzone : ¬bad .kfreeZone := hbad.not (by decide)
  have hfree : ¬bad .kfree := hbad.not (by decide)
  have hpages : ∀ addr npages, (Heap.page_free fuel true addr npages).Guarded bad Q false :=
    guarded_page_free hbad hQ
  unfold Heap.kfree
  split
  · exact hQ
  · rw [guarded_bind,guarded_get]
    intro usage
    split
    · simp [guarded_bind,hlarge,hpages]
    · rw [guarded_bind,guarded_lock]
      refine ⟨rfl,?_⟩
      rw [guarded_bind,guarded_act]
      intro z
      cases z with
      | none => simp [hfree,hQ]
      | some z => simp [guarded_bind,hzone,hpages]

end guarded

/-- The label `fail` is reached without the lock. -/
theorem guarded_kmallocNewZone {fuel : ℕ} {Q : Word → Bool → Prop} (hQ : ∀ b, Q b false)
    (size zi : Word) (i : Fin NZONES) :
    (kmallocNewZone fuel true size zi i).Guarded (· = .kmallocFail) Q true := by
  unfold kmallocNewZone
  rw [guarded_bind,guarded_unlock]
  refine Or.inr ⟨by decide,rfl,?_⟩
  rw [guarded_bind,guarded_get]
  intro zoneSize
  rw [guarded_bind]
  apply guarded_page_alloc fun _ => id
  intro z
  split
  · simp [guarded_bind]
  · simp [guarded_bind,hQ]

theorem guarded_kmallocSmall {fuel : ℕ} {Q : Word → Bool → Prop} (hQ : ∀ b, Q b false)
    (size : Word) : (kmallocSmall fuel true size).Guarded (· = .kmallocFail) Q false := by
  unfold kmallocSmall
  rw [guarded_bind,guarded_lock]
  refine ⟨rfl,?_⟩
  rw [guarded_bind,guarded_act]
  intro i
  rw [guarded_bind,guarded_act]
  intro chunk
  cases chunk with
  | some chunk => simp [guarded_bind,hQ]
  | none =>
      rw [guarded_bind,guarded_act]
      intro z
      cases z with
      | some z => simp [guarded_bind,hQ]
      | none => exact guarded_kmallocNewZone hQ _ _ _

theorem guarded_kmalloc {fuel : ℕ} {Q : Word → Bool → Prop} (hQ : ∀ b, Q b false) (size : Word) :
    (Heap.kmalloc fuel true size).Guarded (· = .kmallocFail) Q false := by
  unfold Heap.kmalloc
  split
  · exact hQ 0
  · rw [guarded_bind,guarded_get]
    intro limit
    split
    · exact guarded_kmallocLarge (fun _ => id) hQ size
    · exact guarded_kmallocSmall hQ size

theorem guarded_kmove {fuel : ℕ} {Q : Word → Bool → Prop} (hQ : ∀ b, Q b false) (ptr size : Word)
    (osize : SlabHeap → Word) :
    (kmove fuel true ptr size osize).Guarded (· = .kmallocFail) Q false := by
  unfold kmove
  rw [guarded_bind]
  apply guarded_kmalloc
  intro nptr
  split
  · exact hQ 0
  · rw [guarded_bind,guarded_modify,guarded_bind]
    exact guarded_kfree (fun _ => id) (hQ nptr) ptr

theorem guarded_krealloc {fuel : ℕ} {Q : Word → Bool → Prop} (hQ : ∀ b, Q b false)
    (ptr size : Word) : (Heap.krealloc fuel true ptr size).Guarded (· = .kmallocFail) Q false := by
  unfold Heap.krealloc
  split_ifs
  · exact guarded_kmalloc hQ size
  · rw [guarded_bind]
    exact guarded_kfree (fun _ => id) (hQ 0) ptr
  · rw [guarded_bind,guarded_get]
    intro usage
    split_ifs
    · exact guarded_kmove hQ _ _ _
    · rw [guarded_bind,guarded_act]
      intro z
      rw [guarded_bind,guarded_get]
      intro chunksize
      split
      · exact hQ ptr
      · exact guarded_kmove hQ _ _ _
    · exact hQ 0

theorem guarded_kcalloc {fuel : ℕ} {Q : Word → Bool → Prop} (hQ : ∀ b, Q b false)
    (count size : Word) :
    (Heap.kcalloc fuel true count size).Guarded (· = .kmallocFail) Q false := by
  unfold Heap.kcalloc
  rw [guarded_bind]
  apply guarded_kmalloc
  intro p
  split
  · simp [guarded_bind,hQ]
  · exact hQ p

theorem guarded_program (fuel : ℕ) (c : Heap.Call) :
    (program fuel c).Guarded (· = .kmallocFail) (fun _ held => held = false) false := by
  refine (guarded_bind ..).mpr ?_
  cases c with
  | kmalloc size =>
      refine guarded_kmalloc ?_ size
      exact fun _ => rfl
  | kcalloc count size =>
      refine guarded_kcalloc ?_ count size
      exact fun _ => rfl
  | krealloc ptr size =>
      refine guarded_krealloc ?_ ptr size
      exact fun _ => rfl
  | kfree ptr => exact (guarded_bind ..).mpr (guarded_kfree (fun _ => id) rfl ptr)
  | page_alloc npages =>
      refine guarded_page_alloc (fun _ => id) ?_ npages
      exact fun _ => rfl
  | get_zeroed_pages npages =>
      refine guarded_get_zeroed_pages (fun _ => id) ?_ npages
      exact fun _ => rfl
  | page_free addr npages =>
      exact (guarded_bind ..).mpr (guarded_page_free (fun _ => id) rfl addr npages)
  | write addr value => exact (guarded_bind ..).mpr (guarded_modify.mpr rfl)

section alone

variable {fuel : ℕ} {h : SlabHeap}

/-- No release is bad. -/
theorem onlyFail_false : OnlyFail fun _ => False := fun _ h => h.elim

/-- What always keeps to the lock and gives it back does so from every heap. -/
theorem obeys_of_guarded {A : Type} {p : HeapProgram A} {P : A → Bool → SlabHeap → Prop}
    {held : Bool} (hP : ∀ a h, P a false h)
    (hp : p.Guarded (fun _ => False) (fun _ held => held = false) held) : p.Obeys P held h :=
  (hp.obeys_iff h).mpr fun a h' _ => hP a h'

@[simp] theorem obeys_lock {P : Unit → Bool → SlabHeap → Prop} {held : Bool} :
    (lock true).Obeys P held h ↔ held = false ∧ P () true h := Iff.rfl

@[simp] theorem obeys_unlock {P : Unit → Bool → SlabHeap → Prop} {held : Bool} {site : Site} :
    (unlock true site).Obeys P held h ↔ held = true ∧ P () false h := Iff.rfl

theorem obeys_kmallocNewZone {P : Word → Bool → SlabHeap → Prop} (hP : ∀ a h, P a false h)
    (size zi : Word) (i : Fin NZONES) :
    (kmallocNewZone fuel true size zi i).Obeys P true h ↔
      ¬∃ h', (Heap.page_alloc fuel true (h.zoneSize/CONFIG_MM_PAGE_SIZE)).run h = some (0,h') := by
  have hsearch : (Heap.page_alloc fuel true (h.zoneSize/CONFIG_MM_PAGE_SIZE)).Guarded
      (fun _ => False) (fun _ held => held = false) false := by
    apply guarded_page_alloc onlyFail_false
    intro b
    rfl
  unfold kmallocNewZone
  rw [obeys_bind,obeys_unlock,obeys_bind,obeys_get,obeys_bind,hsearch.obeys_iff h,not_exists]
  simp only [true_and]
  constructor
  · intro H h' hrun
    have := H 0 h' hrun
    simp [obeys_bind] at this
  · intro H z h' hrun
    have hz : z ≠ 0 := by
      rintro rfl
      exact H h' hrun
    rw [if_neg hz]
    apply obeys_of_guarded hP
    simp [guarded_bind]

theorem fromZone_none {size : Word} {i : Fin NZONES} (hi : h.zoneArray i = 0) :
    fromZone size i h = some (none,h) := by simp [fromZone,hi]

theorem fromZone_chunk {size : Word} {i : Fin NZONES} (hi : h.zoneArray i ≠ 0)
    {r : Option Word × SlabHeap} (hr : fromZone size i h = some r) : r.1.isSome = true := by
  unfold fromZone at hr
  simp only [hi,↓reduceIte] at hr
  split_ifs at hr
  all_goals
    cases hr
    rfl

theorem fromFreeZones_none (hz : h.zoneFree = 0) : fromFreeZones h = some (none,h) := by
  simp [fromFreeZones,hz]

theorem obeys_kmallocSmall {P : Word → Bool → SlabHeap → Prop} (hP : ∀ a h, P a false h)
    (size : Word) : (kmallocSmall fuel true size).Obeys P false h ↔
      ¬((∃ i, index (zoneindex size).2 = some i ∧ h.zoneArray i = 0) ∧ h.zoneFree = 0 ∧
        ∃ h', (Heap.page_alloc fuel true (h.zoneSize/CONFIG_MM_PAGE_SIZE)).run h = some (0,h')) := by
  unfold kmallocSmall
  rw [obeys_bind,obeys_lock]
  simp only [true_and]
  rw [obeys_bind]
  cases hi : index (zoneindex size).2 with
  | none => simp
  | some i =>
      rw [obeys_act_some (show _ = some (i,h) from rfl),obeys_bind]
      simp only [Option.some.injEq,exists_eq_left']
      by_cases hz : h.zoneArray i = 0
      · rw [obeys_act_some (fromZone_none hz)]
        dsimp only
        rw [obeys_bind]
        by_cases hfree : h.zoneFree = 0
        · rw [obeys_act_some (fromFreeZones_none hfree)]
          simpa only [hz,hfree,true_and] using obeys_kmallocNewZone hP _ _ _
        · simp only [hfree,false_and,and_false,not_false_iff,iff_true]
          intro z h' hr
          rw [fromFreeZones,if_neg hfree,Option.some.injEq,Prod.mk.injEq] at hr
          obtain ⟨rfl,-⟩ := hr
          apply obeys_of_guarded hP
          simp [guarded_bind]
      · simp only [hz,false_and,not_false_iff,iff_true]
        intro chunk h' hr
        obtain ⟨chunk,rfl⟩ := Option.isSome_iff_exists.mp (fromZone_chunk hz hr)
        apply obeys_of_guarded hP
        simp [guarded_bind]

theorem obeys_kmalloc {P : Word → Bool → SlabHeap → Prop} (hP : ∀ a h, P a false h) (size : Word) :
    (Heap.kmalloc fuel true size).Obeys P false h ↔ ¬ZoneExhausted fuel size h := by
  unfold Heap.kmalloc ZoneExhausted
  by_cases hsize : size = 0
  · simp [hsize,hP]
  · rw [if_neg hsize,obeys_bind,obeys_get]
    by_cases hlimit : h.zoneLimit ≤ size
    · simp only [hlimit,↓reduceIte,BitVec.not_lt.mpr hlimit,false_and,and_false,not_false_iff,
        iff_true]
      apply obeys_of_guarded hP
      apply guarded_kmallocLarge onlyFail_false
      intro b
      rfl
    · rw [if_neg hlimit,obeys_kmallocSmall hP]
      simp only [ne_eq,hsize,not_false_iff,BitVec.not_le.mp hlimit,true_and]

theorem obeys_kmove {P : Word → Bool → SlabHeap → Prop} (hP : ∀ a h, P a false h) (ptr size : Word)
    (osize : SlabHeap → Word) :
    (kmove fuel true ptr size osize).Obeys P false h ↔ ¬ZoneExhausted fuel size h := by
  unfold kmove
  rw [obeys_bind]
  apply obeys_kmalloc
  intro nptr h
  apply obeys_of_guarded hP
  split
  · rfl
  · rw [guarded_bind,guarded_modify,guarded_bind]
    exact guarded_kfree onlyFail_false rfl ptr

theorem obeys_krealloc {P : Word → Bool → SlabHeap → Prop} (hP : ∀ a h, P a false h)
    (ptr size : Word) : (Heap.krealloc fuel true ptr size).Obeys P false h ↔
      ∀ n, request h (.krealloc ptr size) = some n → ¬ZoneExhausted fuel n h := by
  unfold Heap.krealloc request
  by_cases hptr : ptr = 0
  · simpa [hptr] using obeys_kmalloc hP size
  by_cases hsize : size = 0
  · simp only [hptr,hsize,↓reduceIte,reduceCtorEq,false_implies,implies_true,iff_true]
    apply obeys_of_guarded hP
    rw [guarded_bind]
    exact guarded_kfree onlyFail_false rfl ptr
  simp only [hptr,hsize,↓reduceIte]
  rw [obeys_bind,obeys_get]
  split_ifs with hlarge hsmall hused hused
  · simpa using obeys_kmove hP ptr size _
  · rw [obeys_bind,obeys_act_some (show _ = some (h.zoneOf ptr,h) by simp [hused.2.1]),obeys_bind,
      obeys_get,if_neg hused.2.2,obeys_kmove hP]
    simp
  · simp only [false_implies,implies_true,iff_true]
    rw [obeys_bind,obeys_act]
    intro z h' hz
    split_ifs at hz with hmagic
    cases hz
    have hchunk : h.zone (h.zoneOf ptr) .chunksize = (zoneindex size).1 := by
      by_contra hne
      exact hused ⟨hsmall,not_not.mp hmagic,hne⟩
    rw [obeys_bind,obeys_get,if_pos hchunk]
    exact hP _ _
  · exact absurd hused.1 hsmall
  · simp [hP]

theorem obeys_kcalloc {P : Word → Bool → SlabHeap → Prop} (hP : ∀ a h, P a false h)
    (count size : Word) : (Heap.kcalloc fuel true count size).Obeys P false h ↔
      ¬ZoneExhausted fuel (count*size) h := by
  unfold Heap.kcalloc
  rw [obeys_bind]
  apply obeys_kmalloc
  intro p h
  split
  · simp [obeys_bind,hP]
  · exact hP p h

theorem obeys_program (fuel : ℕ) (c : Heap.Call) (h : SlabHeap) :
    (program fuel c).Obeys (fun _ held _ => held = false) false h ↔
      ∀ size, request h c = some size → ¬ZoneExhausted fuel size h := by
  -- a call that asks for nothing keeps to the lock from every heap
  have hnone : request h c = none →
      (c.program fuel true).Guarded (fun _ => False) (fun _ held => held = false) false →
      ((program fuel c).Obeys (fun _ held _ => held = false) false h ↔
        ∀ size, request h c = some size → ¬ZoneExhausted fuel size h) := by
    intro hc hp
    simp only [hc,reduceCtorEq,false_implies,implies_true,iff_true]
    exact obeys_of_guarded (fun _ _ => rfl) ((guarded_bind ..).mpr hp)
  cases c with
  | kmalloc size =>
      rw [program,Call.program,obeys_bind,obeys_kmalloc (by simp)]
      simp [request]
  | kcalloc count size =>
      rw [program,Call.program,obeys_bind,obeys_kcalloc (by simp)]
      simp [request]
  | krealloc ptr size => rw [program,Call.program,obeys_bind,obeys_krealloc (by simp)]
  | kfree ptr => exact hnone rfl ((guarded_bind ..).mpr (guarded_kfree onlyFail_false rfl ptr))
  | page_alloc npages =>
      refine hnone rfl (guarded_page_alloc onlyFail_false ?_ npages)
      exact fun _ => rfl
  | get_zeroed_pages npages =>
      refine hnone rfl (guarded_get_zeroed_pages onlyFail_false ?_ npages)
      exact fun _ => rfl
  | page_free addr npages =>
      exact hnone rfl ((guarded_bind ..).mpr (guarded_page_free onlyFail_false rfl addr npages))
  | write addr value => exact hnone rfl ((guarded_bind ..).mpr (guarded_modify.mpr rfl))

end alone

section runs

abbrev World (σ θ : Type) := SemaphoreLock.World σ SlabHeap Site θ

inductive Call (θ : Type) where
  | call (t : θ) (c : Heap.Call)
  | go (t : θ)
  deriving DecidableEq, Repr

variable {σ θ : Type} [ListFamily σ (ListId Unit) θ]

/-- A thread begins a call, or executes the next instruction of its call. -/
def step [DecidableEq θ] (fuel : ℕ) (w : World σ θ) : Call θ → Option (World σ θ)
  | .call t c => some (w.move t (.running (program fuel c)))
  | .go t => w.go t

/-- Ready threads act. -/
def Legal (w : World σ θ) : Call θ → Prop
  | .call t _ => w.place t = .idle ∧ (w.kernel.thread t).stat = .ready
  | .go t => w.place t ≠ .idle ∧ (w.kernel.thread t).stat = .ready

/-- A release finds a thread that is blocked in `take` at the head of the list, or none. -/
def HandsOver (w : World σ θ) : Call θ → Prop
  | .call _ _ => True
  | .go t => w.HandsOver t

/-- The release at the label `fail` of `kmalloc`. -/
def Fails (w : World σ θ) : Call θ → Prop
  | .call _ _ => False
  | .go t => w.AtBad (· = .kmallocFail) t

/-- Alone, a call keeps to the lock of the heap and gives it back, if and only if it does not
ask for a chunk in a new zone for which there are no pages. Whatever the threads do together
and whatever the lists are, as long as every release finds a thread that waits for the lock at
the head of the list, or none, `heap_sem` is their lock along a run if and only if no thread
executes the release at the label `fail`. -/
theorem heap_lock_balanced_iff [DecidableEq θ] (fuel : ℕ) :
    (∀ c h, (program fuel c).Obeys (fun _ held _ => held = false) false h ↔
      ∀ size, request h c = some size → ¬ZoneExhausted fuel size h) ∧
    ∀ (w : World σ θ) (cs : List (Call θ)), Start w → AllSteps (step fuel) Legal w cs →
      AllSteps (step fuel) HandsOver w cs → (Throughout (step fuel) LockSound w cs ↔
        AllSteps (step fuel) (fun w c => ¬Fails w c ∨ (step fuel w c).isNone = true) w cs) := by
  refine ⟨obeys_program fuel,fun w cs hstart hlegal hover => ?_⟩
  refine throughout_iff (I := Invariant (· = .kmallocFail)) (fun _ H => H.lockSound) ?_ ?_
    hstart.invariant (hlegal.and hover)
  · intro w c w' H hl hc h
    cases c with
    | call t c =>
        obtain rfl := Option.some.inj h
        exact H.start hl.1.1 (guarded_program fuel c)
    | go t => exact H.go hl.1.2 hl.2 hc h
  · intro w c w' H hl hc h
    cases c with
    | call t c => exact absurd id hc
    | go t => exact H.go_bad (not_not.mp hc) h

end runs

section concrete

variable {σ θ : Type} [ListFamily σ (ListId Unit) θ]

instance {S L : Type} : ∀ p : Place S L, Decidable (p = .idle)
  | .idle => .isTrue rfl
  | .running _ | .waiting _ => .isFalse (fun h => nomatch h)

instance (w : World σ θ) : ∀ c, Decidable (Legal w c)
  | .call t _ =>
      inferInstanceAs (Decidable (w.place t = .idle ∧ (w.kernel.thread t).stat = .ready))
  | .go t =>
      inferInstanceAs (Decidable (w.place t ≠ .idle ∧ (w.kernel.thread t).stat = .ready))

instance (w : World σ θ) (c : Call θ) : Decidable (HandsOver w c) := by
  unfold HandsOver World.HandsOver
  split
  · infer_instance
  · split <;> infer_instance

instance (w : World σ θ) (c : Call θ) : Decidable (Fails w c) := by
  unfold Fails World.AtBad
  split
  · infer_instance
  · split <;> infer_instance

end concrete

/-- The heap that `system_heap_init` makes of ten pages: one for `memusage`, and a zone takes
eight. -/
def tenPages : SlabHeap :=
  (((system_heap_init 5 false 0x100000 0x10a000).run zeroHeap).getD ((),zeroHeap)).2

/-- An idle thread, three others and the heap, with the lists of coslib. -/
def heapWorld : World (IntrusiveList.Store (ListId Unit) (Fin 4) (Fin 4)) (Fin 4) where
  kernel := Scheduler.startedPointers ![254,20,20,20]
  value := 1
  state := tenPages
  place _ := .idle
  balance _ := 0

theorem heapWorld_start : Start heapWorld := ⟨rfl,fun _ => rfl,fun _ => rfl⟩

/-- Two threads meet at the lock, which goes from one to the other. -/
def contended : List (Call (Fin 4)) :=
  List.flatten [[.call 1 (.page_alloc 1),.call 3 (.kmalloc 20),.go 1,.go 3,.go 3],
    List.replicate 3 (.go 1),List.replicate 14 (.go 3)]

theorem heap_lock_balanced_contended :
    ((contended.foldlM (step 5) heapWorld).map fun w => (w.value,w.balance 1,w.balance 3)) =
      some (1,0,0) ∧
    Throughout (step 5) LockSound heapWorld contended :=
  ⟨by decide +kernel,((heap_lock_balanced_iff 5).2 _ _ heapWorld_start (by decide +kernel)
    (by decide +kernel)).mpr (by decide +kernel)⟩

/-- With two pages in use there is no zone for a chunk. After that two threads enter the
page allocator. -/
def exhausted : List (Call (Fin 4)) :=
  List.flatten [[.call 1 (.page_alloc 2)],List.replicate 4 (.go 1),[.call 1 (.kmalloc 20)],
    List.replicate 12 (.go 1),[.call 2 (.page_alloc 1),.go 2,.call 3 (.page_alloc 1),.go 3]]

theorem exhausted_zone_unlocks_heap : AllSteps (step 5) Legal heapWorld exhausted ∧
    AllSteps (step 5) HandsOver heapWorld exhausted ∧
    ((exhausted.foldlM (step 5) heapWorld).map fun w =>
      (decide (w.place 1 = .idle),w.balance 1,w.balance 2,w.balance 3)) = some (true,-1,1,1) ∧
    ¬Throughout (step 5) LockSound heapWorld exhausted := by
  have hfacts : ((exhausted.foldlM (step 5) heapWorld).map fun w =>
      (decide (w.place 1 = .idle),w.balance 1,w.balance 2,w.balance 3)) = some (true,-1,1,1) := by
    decide +kernel
  refine ⟨by decide +kernel,by decide +kernel,hfacts,fun h => ?_⟩
  obtain ⟨w,hw,hfacts⟩ := Option.map_eq_some_iff.mp hfacts
  simp only [Prod.mk.injEq] at hfacts
  have := (h.last hw).nonneg 1
  omega

end CosKernel.HeapLock
