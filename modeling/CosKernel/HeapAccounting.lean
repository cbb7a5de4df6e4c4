import CosKernel.HeapRuns
import CosKernel.VisitedStates

/-!
# The account of the heap

`used_mem` is the sum of the lengths of all blocks of `kmalloc`, and `max_mem` is the largest
value that it has had. Within a call `used_mem` changes once, except that `krealloc` holds both
the old and the new block for a while.
-/
namespace CosKernel.HeapBlocks
open SlabHeap Heap PageAllocator TransitionRuns
open LockedPrograms LockedPrograms.Program

section programs

variable {h h' : SlabHeap} {fuel : ℕ} {down : Bool}

@[simp] theorem account_setLink (prev : Option Word) (v : Word) :
    account (h.setLink prev v) = account h := by
  cases prev <;> rfl

theorem account_pageAllocLoop {npages b : Word} {prev : Option Word}
    (hloop : pageAllocLoop npages fuel h prev = some (b,h')) : account h' = account h := by
  induction fuel generalizing prev with
  | zero => cases hloop
  | succ fuel ih =>
      unfold pageAllocLoop at hloop
      simp only at hloop
      split_ifs at hloop with h₁ h₂ h₃
      · cases hloop
        rfl
      · cases hloop
        exact account_setLink ..
      · cases hloop
        exact account_setLink ..
      · exact ih hloop

theorem account_pageGrow {b npages : Word} (hgrow : h.pageGrow b npages = some h') :
    account h' = account h := by
  unfold pageGrow at hgrow
  simp only at hgrow
  split_ifs at hgrow
  · cases hgrow
    rfl
  · cases hgrow
    rfl

theorem account_pageFreeLoop {n npages : Word} {prev : Option Word}
    (hloop : pageFreeLoop n npages fuel h prev = some h') : account h' = account h := by
  induction fuel generalizing prev with
  | zero => cases hloop
  | succ fuel ih =>
      unfold pageFreeLoop at hloop
      simp only at hloop
      split_ifs at hloop with h₁ h₂ h₃ h₄ h₅ h₆
      · cases hloop
        exact account_setLink ..
      · exact account_pageGrow hloop
      · cases hloop
        exact account_setLink ..
      · cases hloop
        exact account_setLink ..
      · exact ih hloop

theorem steady_lock : Steady account (lock down) := by
  cases down <;> trivial

theorem steady_unlock {site : Site} : Steady account (unlock down site) := by
  cases down <;> trivial

theorem steady_page_alloc (npages : Word) : Steady account (page_alloc fuel down npages) := by
  unfold page_alloc
  split_ifs
  · exact steady_pure 0
  · refine steady_lock.bind fun _ => (steady_act fun s b s' hf => ?_).bind fun b =>
      steady_unlock.bind fun _ => steady_pure b
    exact account_pageAllocLoop hf

theorem steady_page_free (addr npages : Word) : Steady account (page_free fuel down addr npages) := by
  unfold page_free
  split_ifs
  · exact steady_act nofun
  · refine steady_lock.bind fun _ => (steady_act fun s b s' hf => ?_).bind fun _ => steady_unlock
    obtain ⟨h,hloop,heq⟩ := Option.map_eq_some_iff.mp hf
    cases heq
    exact account_pageFreeLoop hloop

theorem account_setUsages (kup type : Word) (size : ℕ → Word) (n : ℕ) (h : SlabHeap) :
    account (setUsages kup type size n h) = account h := by
  induction n with
  | zero => rfl
  | succ n ih => exact ih

theorem steady_fromFreeZones :
    ∀ s b s', fromFreeZones s = some (b,s') → account s' = account s := by
  intro s b s' hf
  unfold fromFreeZones at hf
  simp only at hf
  split_ifs at hf
  · cases hf
    rfl
  · cases hf
    rfl

theorem once_kmallocNewZone (size zi : Word) (i : Fin NZONES) :
    Once account (kmallocNewZone fuel down size zi i) := by
  refine steady_unlock.bind_once fun _ => (steady_get _).bind_once fun _ =>
    (steady_page_alloc _).bind_once fun z => ?_
  split_ifs
  · exact (steady_unlock.bind fun _ => steady_pure 0).once
  · refine steady_lock.bind_once fun _ => (steady_modify fun s => ?_).bind_once fun _ =>
      (once_act _).bind fun b => steady_unlock.bind fun _ => steady_pure b
    exact account_setUsages ..

theorem once_kmallocSmall (size : Word) : Once account (kmallocSmall fuel down size) := by
  refine steady_lock.bind_once fun _ => ?_
  refine (steady_act fun s b s' hf => ?_).bind_once fun i => once_act_bind fun s b s' hf => ?_
  · obtain ⟨i,-,heq⟩ := Option.map_eq_some_iff.mp hf
    cases heq
    rfl
  · cases b with
    | some chunk => exact Or.inr (steady_unlock.bind fun _ => steady_pure chunk)
    | none =>
        -- without a zone nothing has happened so far
        refine Or.inl ⟨?_,?_⟩
        · unfold fromZone at hf
          simp only at hf
          split_ifs at hf
          all_goals first | (cases hf; rfl) | cases hf
        · refine (steady_act steady_fromFreeZones).bind_once fun z => ?_
          cases z with
          | some z => exact (once_act _).bind fun b => steady_unlock.bind fun _ => steady_pure b
          | none => exact once_kmallocNewZone ..

theorem once_kmalloc (size : Word) : Once account (kmalloc fuel down size) := by
  unfold kmalloc
  split_ifs
  · exact (steady_pure 0).once
  · refine (steady_get _).bind_once fun limit => ?_
    split_ifs
    · refine (steady_page_alloc _).bind_once fun chunk => ?_
      split_ifs
      · exact (steady_pure 0).once
      · refine (steady_modify fun s => ?_).bind_once fun _ => steady_lock.bind_once fun _ =>
          (once_act _).bind fun _ => steady_unlock.bind fun _ => steady_pure chunk
        rfl
    · exact once_kmallocSmall size

theorem once_kfree (p : Word) : Once account (kfree fuel down p) := by
  unfold kfree
  split_ifs
  · exact (steady_pure ()).once
  · refine (steady_get _).bind_once fun usage => ?_
    split_ifs
    · exact steady_lock.bind_once fun _ => (once_act _).bind fun size =>
        steady_unlock.bind fun _ => steady_page_free p size
    · refine steady_lock.bind_once fun _ => (once_act _).bind fun z => ?_
      cases z with
      | some z => exact steady_unlock.bind fun _ => (steady_get _).bind fun _ => steady_page_free z _
      | none => exact steady_unlock

end programs

/-- `seen` has the values of `used_mem` so far, and `max_mem` is the largest of them. -/
structure Peak (a : Word × Word) (seen : List Word) : Prop where
  used : a.1 ∈ seen
  top : a.2 ∈ seen
  bound : ∀ v ∈ seen, v ≤ a.2

/-- `max_mem` is raised to the new value of `used_mem` if that is larger. -/
def Climbs (a b : Word × Word) : Prop := b.2 = if a.2 < b.1 then b.1 else a.2

section peaks

variable {a b : Word × Word} {seen seen' : List Word}

theorem Peak.climb (P : Peak a seen) (h : Climbs a b) (hseen : ∀ v, v ∈ seen' ↔ v = b.1 ∨ v ∈ seen) :
    Peak b seen' := by
  unfold Climbs at h
  refine ⟨(hseen _).mpr (Or.inl rfl),(hseen _).mpr ?_,fun v hv => ?_⟩
  · split_ifs at h with hlt
    · exact Or.inl h
    · rw [h]
      exact Or.inr P.top
  · rcases (hseen v).mp hv with rfl | hv
    · split_ifs at h with hlt
      · rw [h]
        exact BitVec.le_refl _
      · rw [h]
        exact BitVec.not_lt.mp hlt
    · have hle := P.bound v hv
      split_ifs at h with hlt
      · rw [h]
        exact BitVec.le_trans hle (BitVec.le_of_lt hlt)
      · rw [h]
        exact hle

theorem Peak.le (P : Peak a seen) : a.1 ≤ a.2 := P.bound _ P.used

theorem climbs_of_le (hle : b.1 ≤ a.2) (htop : b.2 = a.2) : Climbs a b := by
  rw [Climbs,if_neg (BitVec.not_lt.mpr hle),htop]

theorem climbs_use (h : SlabHeap) (s : Word) : Climbs (account h) (account (h.use s)) := rfl

end peaks

/-- The program alone keeps `max_mem` up to date. -/
def Peaks {A : Type} (p : HeapProgram A) (s : SlabHeap) : Prop :=
  ∀ seen x s', run p s = some (x,s') → Peak (account s) seen →
    Peak (account s') ((visited p s).map SlabHeap.usedMem++seen)

section rules

variable {A B : Type} {p : HeapProgram A} {g : A → HeapProgram B} {s s' : SlabHeap} {x : A}
variable {seen : List Word}

/-- The values of `used_mem` in a program that changes it at most once. -/
theorem mem_used_once (hp : Once account p) (hrun : run p s = some (x,s')) (hs : s.usedMem ∈ seen)
    (v : Word) : v ∈ (visited p s).map SlabHeap.usedMem++seen ↔ v = s'.usedMem ∨ v ∈ seen := by
  rw [List.mem_append,List.mem_map]
  constructor
  · rintro (⟨t,ht,rfl⟩ | hv)
    · rcases hp.visited hrun ht with h | h
      · rw [(Prod.mk.inj h).1]
        exact Or.inr hs
      · exact Or.inl (Prod.mk.inj h).1
    · exact Or.inr hv
  · rintro (rfl | hv)
    · rcases eq_or_mem_visited hrun with rfl | hmem
      · exact Or.inr hs
      · exact Or.inl ⟨s',hmem,rfl⟩
    · exact Or.inr hv

theorem peaks_of_once (hp : Once account p) (hclimbs : ∀ x s', run p s = some (x,s') →
    (account s).1 ≤ (account s).2 → Climbs (account s) (account s')) : Peaks p s :=
  fun _ x s' hrun P => P.climb (hclimbs x s' hrun P.le) (mem_used_once hp hrun P.used)

theorem peaks_of_steady (hp : Steady account p) : Peaks p s :=
  peaks_of_once hp.once fun x s' hrun hle => by
    rw [hp.run hrun]
    exact climbs_of_le hle rfl

theorem Peaks.bind (hp : Peaks p s) (hg : ∀ x s', run p s = some (x,s') → Peaks (g x) s') :
    Peaks (p >>= g) s := by
  intro seen y s'' hrun P
  rw [run_bind] at hrun
  obtain ⟨⟨x,s'⟩,hfirst,hrest⟩ := Option.bind_eq_some_iff.mp hrun
  have P' := hg x s' hfirst _ y s'' hrest (hp seen x s' hfirst P)
  have hsame : ∀ v, v ∈ (visited (p >>= g) s).map SlabHeap.usedMem++seen ↔
      v ∈ (visited (g x) s').map SlabHeap.usedMem++((visited p s).map SlabHeap.usedMem++seen) := by
    intro v
    simp only [visited_bind hfirst,List.map_append,List.mem_append,or_assoc,or_left_comm]
  exact ⟨(hsame _).mpr P'.used,(hsame _).mpr P'.top,fun v hv => P'.bound v ((hsame v).mp hv)⟩

end rules

section calls

variable {c : Config} {L : Layout c} {w : World} {fuel : ℕ} {down : Bool} {ptr n : Word}

theorem Describes.peaks_kmalloc (D : Describes L w) (hfuel : c.count < fuel) :
    Peaks (kmalloc fuel down n) w.heap := by
  refine peaks_of_once (once_kmalloc n) fun x s' hrun hle => ?_
  rcases D.kept.kmalloc hfuel down n with hnull | ⟨b,L',h',hsome,-,-,G⟩
  · rw [hrun] at hnull
    cases hnull
    exact climbs_of_le hle rfl
  · rw [hrun] at hsome
    cases hsome
    obtain ⟨s,-,hs⟩ := G.used
    rw [hs]
    exact climbs_use w.heap s

/-- A block is not longer than all blocks together. -/
theorem Describes.usable_le (D : Describes L w) (hb : .bytes ptr n ∈ w.blocks) :
    usable w.heap ptr ≤ w.heap.usedMem.toNat := by
  rw [D.used]
  exact List.single_le_sum (fun _ _ => Nat.zero_le _) _ (List.mem_map.mpr ⟨_,hb,rfl⟩)

theorem Describes.peaks_kfree (D : Describes L w) (hfuel : c.count < fuel) (hl : w.Holds ptr) :
    Peaks (kfree fuel down ptr) w.heap := by
  refine peaks_of_once (once_kfree ptr) fun x s' hrun hle => ?_
  by_cases hptr : ptr = 0
  · rw [kfree,if_pos hptr,run_pure] at hrun
    cases hrun
    exact climbs_of_le hle rfl
  · obtain ⟨n,hb⟩ := Describes.holds hl hptr
    obtain ⟨L',h',hsome,R⟩ := D.kept.kfree hfuel down (D.block_live hb)
    rw [hrun] at hsome
    cases hsome
    obtain ⟨s,hs,haccount⟩ := R.used
    have hused := D.usable_le hb
    rw [haccount]
    refine climbs_of_le (BitVec.le_trans ?_ hle) rfl
    change w.heap.usedMem-s ≤ w.heap.usedMem
    rw [BitVec.le_def,BitVec.toNat_sub_of_le (by rw [BitVec.le_def]; omega)]
    omega

theorem Describes.peaks_kmove (D : Describes L w) (hfuel : c.count < fuel) (hl : w.Holds ptr)
    (osize : SlabHeap → Word) : Peaks (kmove fuel down ptr n osize) w.heap := by
  refine (D.peaks_kmalloc hfuel).bind fun q s' hrun => ?_
  rcases D.kept.kmalloc hfuel down n with hnull | ⟨b,L',h',hsome,hb,hn,G⟩
  · rw [hrun] at hnull
    cases hnull
    rw [if_pos rfl]
    exact peaks_of_steady (steady_pure 0)
  · rw [hrun] at hsome
    cases hsome
    rw [if_neg hb]
    refine (peaks_of_steady (steady_modify fun _ => ?_)).bind fun _ s₂ hrun₂ => ?_
    · rfl
    rw [run_modify] at hrun₂
    cases hrun₂
    have hlen : (if osize s' < n then osize s' else n).toNat ≤ c.usable n := by
      have hfits := G.fits hn
      split_ifs with hlt
      · rw [BitVec.lt_def] at hlt
        omega
      · exact hfits
    obtain ⟨K₂,-⟩ := G.kept.fill G.adds.self rfl hlen fun off => s'.mem (ptr+off)
    have D₂ := (D.granted G hn).keep K₂ rfl
    refine (D₂.peaks_kfree hfuel ?_).bind fun _ _ _ => peaks_of_steady (steady_pure q)
    exact hl.imp_right fun ⟨b,hb,hchunk⟩ => ⟨b,List.mem_cons_of_mem _ hb,hchunk⟩

theorem Describes.peaks_krealloc (D : Describes L w) (hfuel : c.count < fuel) (hl : w.Holds ptr) :
    Peaks (krealloc fuel down ptr n) w.heap := by
  unfold krealloc
  split_ifs
  · exact D.peaks_kmalloc hfuel
  · exact (D.peaks_kfree hfuel hl).bind fun _ _ _ => peaks_of_steady (steady_pure 0)
  · refine (peaks_of_steady (steady_get _)).bind fun usage s hrun => ?_
    rw [run_get] at hrun
    cases hrun
    split_ifs
    · exact D.peaks_kmove hfuel hl _
    · refine (peaks_of_steady (steady_act fun s b s' hf => ?_)).bind fun z s hrun => ?_
      · simp only at hf
        split_ifs at hf
        cases hf
        rfl
      · rw [run_act] at hrun
        simp only at hrun
        split_ifs at hrun
        cases hrun
        refine (peaks_of_steady (steady_get _)).bind fun chunksize s hrun => ?_
        rw [run_get] at hrun
        cases hrun
        split_ifs
        · exact peaks_of_steady (steady_pure ptr)
        · exact D.peaks_kmove hfuel hl _
    · exact peaks_of_steady (steady_pure 0)

/-- Every legal call keeps `max_mem` up to date. -/
theorem Describes.peaks (D : Describes L w) (hfuel : c.count < fuel) (down : Bool) {call : Call}
    (hl : Legal w call) : Peaks (call.program fuel down) w.heap := by
  cases call with
  | kmalloc size => exact D.peaks_kmalloc hfuel
  | kcalloc count size =>
      refine (D.peaks_kmalloc hfuel).bind fun q s hrun => peaks_of_steady ?_
      simp only
      split_ifs
      · refine (steady_modify fun s => ?_).bind fun _ => steady_pure q
        rfl
      · exact steady_pure q
  | krealloc ptr size => exact D.peaks_krealloc hfuel hl
  | kfree ptr => exact (D.peaks_kfree hfuel hl).bind fun _ _ _ => peaks_of_steady (steady_pure 0)
  | page_alloc npages => exact peaks_of_steady (steady_page_alloc npages)
  | get_zeroed_pages npages =>
      refine peaks_of_steady ((steady_page_alloc npages).bind fun q => ?_)
      simp only
      split_ifs
      · refine (steady_modify fun s => ?_).bind fun _ => steady_pure q
        rfl
      · exact steady_pure q
  | page_free addr npages =>
      exact peaks_of_steady ((steady_page_free addr npages).bind fun _ => steady_pure 0)
  | write addr value =>
      refine peaks_of_steady ((steady_modify fun s => ?_).bind fun _ => steady_pure 0)
      rfl

end calls

/-- The state, and the values that `used_mem` has had so far, also within calls. -/
structure Meter where
  world : World
  seen : List Word

def meterStep (fuel : ℕ) (down : Bool) (m : Meter) (call : Call) : Option Meter :=
  (step fuel down m.world call).map fun w =>
    ⟨w,(visited (call.program fuel down) m.world.heap).map SlabHeap.usedMem++m.seen⟩

/-- `used_mem` is the sum of the lengths of the blocks of `kmalloc`, and `max_mem` is the largest
value that it has had. -/
structure Accounted (m : Meter) : Prop where
  used : m.world.heap.usedMem.toNat = (m.world.blocks.map (Block.charge m.world.heap)).sum
  empty : m.world.blocks = [] → m.world.heap.usedMem = 0
  attained : m.world.heap.maxMem ∈ m.seen
  largest : ∀ v ∈ m.seen, v ≤ m.world.heap.maxMem

section meter

variable {fuel : ℕ} {down : Bool} {m : Meter}

theorem Described.accounted (H : Described fuel m.world) (P : Peak (account m.world.heap) m.seen) :
    Accounted m := by
  obtain ⟨c,L,-,D⟩ := H
  refine ⟨D.used,fun hnil => BitVec.eq_of_toNat_eq ?_,P.top,P.bound⟩
  rw [D.used,hnil]
  rfl

theorem Described.meterStep (H : Described fuel m.world) (P : Peak (account m.world.heap) m.seen)
    {call : Call} (hl : Legal m.world call) : ∃ m', meterStep fuel down m call = some m' ∧
      Described fuel m'.world ∧ Peak (account m'.world.heap) m'.seen := by
  obtain ⟨c,L,hcount,D⟩ := H
  obtain ⟨r,h',L',hrun,D'⟩ := D.call hcount down hl
  refine ⟨⟨⟨h',call.blocks m.world.blocks r⟩,_⟩,?_,⟨c,L',hcount,D'⟩,
    D.peaks hcount down hl _ r h' hrun P⟩
  rw [HeapBlocks.meterStep,HeapBlocks.step,hrun,Option.map_some,Option.map_some]

end meter

/-- From `system_heap_init` on, in every run of the allocators, calls that fail included,
`used_mem` is the sum of the lengths of the live blocks of `kmalloc` and `max_mem` the largest
value that `used_mem` has had. -/
theorem heap_account_right {fuel : ℕ} {down : Bool} {w : World} (H : Accepted fuel down w)
    (cs : List Call) (hlegal : AllSteps (meterStep fuel down) (fun m => Legal m.world) ⟨w,[0]⟩ cs) :
    Always (meterStep fuel down) Accounted ⟨w,[0]⟩ cs := by
  have hstart : Peak (account w.heap) [0] := by
    obtain ⟨h₀,b,e,F,hrun,hfuel⟩ := H.init
    obtain ⟨c,-,-,haccount⟩ := F.init hrun H.accepted hfuel
    rw [haccount]
    exact ⟨List.mem_singleton_self 0,List.mem_singleton_self 0,fun v hv => by
      rw [List.mem_singleton.mp hv]
      exact BitVec.le_refl _⟩
  refine always_of_invariant (I := fun m => Described fuel m.world ∧ Peak (account m.world.heap) m.seen)
    (fun m hm => hm.1.accounted hm.2) (fun m call hm hl => ?_) ⟨H.described,hstart⟩ hlegal
  obtain ⟨m',hstep,hm'⟩ := hm.1.meterStep hm.2 hl
  exact ⟨m',hstep,hm'⟩

/-- A block of 104 bytes moves to one of 5120 bytes; meanwhile both are in use. A request that is
too large fails, and the block is freed. -/
def moveAndFail : List Call :=
  [.kmalloc 100,.krealloc 0x101028 5000,.kmalloc 0x40000,.kfree 0x109028]

theorem heap_account_right_moveAndFail :
    ((moveAndFail.foldlM (meterStep 50 true) ⟨⟨smallHeap,[]⟩,[0]⟩).map fun m =>
      (m.world.heap.usedMem,m.world.heap.maxMem)) = some (0,5224) ∧
    Always (meterStep 50 true) Accounted ⟨⟨smallHeap,[]⟩,[0]⟩ moveAndFail := by
  refine ⟨by decide +kernel,?_⟩
  apply heap_account_right accepted_smallHeap
  decide +kernel

end CosKernel.HeapBlocks
