import CosKernel.ZoneRelease

/-!
# The calls of the heap

`kmalloc` adds one block to what the clients hold, `kfree` removes one, and neither changes
the contents of any other block. `kmalloc` returns null only without a change of the heap.
-/
namespace CosKernel.HeapBlocks
open SlabHeap Heap PageAllocator LinkedChain IntervalFreeList BlockMaps WordMasks
open LockedPrograms LockedPrograms.Program

variable {c : Config}

/-- The length of the block for a request: a chunk of the class of the request, or pages. -/
def Config.usable (c : Config) (n : Word) : ℕ :=
  if n.toNat < c.limit then (zoneindex n).1.toNat else (WIDTH_ALIGN n CONFIG_MM_PAGE_SIZE).toNat

/-- What `kmalloc` owes its caller when it returns a block `b` for a request of `n` bytes. -/
structure Granted (L : Layout c) (h : SlabHeap) (n b : Word) (L' : Layout c) (h' : SlabHeap) :
    Prop where
  kept : Kept L' h'
  adds : Adds L L' (.bytes b.toNat (c.usable n))
  spares : Spares L h h'
  tidy : L.Tidy → L'.Tidy
  used : ∃ s : Word, s.toNat = c.usable n ∧ account h' = account (h.use s)

section accounts

variable {h h' : SlabHeap}

theorem account_use (hh : account h' = account h) (s : Word) :
    account (h'.use s) = account (h.use s) := by
  obtain ⟨h₁,h₂⟩ := Prod.mk.inj hh
  simp only [account,SlabHeap.use,h₁,h₂]

end accounts

section adding

variable {L L' : Layout c} {h h' : SlabHeap} {p : ℕ} {e : Holding}

/-- The block at `p` gives something that it did not give before. -/
theorem Shape.adds (S : Shape L') (hrole : ∀ q, q ≠ p → L'.role q = L.role q)
    (hat : ∀ e', L'.At p e' ↔ L.At p e' ∨ e' = e) (hnot : ¬L.At p e) : Adds L L' e := by
  refine adds_of_at hrole hat fun ⟨q,hq⟩ => ?_
  by_cases hqp : q = p
  · exact hnot (hqp ▸ hq)
  · refine hqp (S.at_unique ?_ ((hat e).mpr (Or.inr rfl)))
    unfold Layout.At
    rw [hrole q hqp]
    exact hq

theorem Layout.at_iff {r : Role c} (hr : L.role p = some r) : L.At p e ↔ r.Gives p e := by
  simp only [Layout.At,hr,Option.some.injEq,exists_eq_left']

/-- The block at `p` gives nothing before, and one thing after. -/
theorem Shape.adds_first {r : Role c} (S : Shape L') (hrole : ∀ q, q ≠ p → L'.role q = L.role q)
    (hr : L'.role p = some r) (hold : ∀ e', ¬L.At p e') (hnew : ∀ e', r.Gives p e' ↔ e' = e) :
    Adds L L' e := by
  refine S.adds hrole (fun e' => ?_) (hold e)
  rw [Layout.at_iff hr,hnew]
  simp only [hold e',false_or]

theorem gives_large {m : ℕ} :
    (Role.large (c := c) m).Gives p e ↔ e = .bytes (p*4096) (m*4096) := by
  cases e with
  | bytes a n => simp only [Role.Gives,Holding.bytes.injEq]
  | pages q n => simp only [Role.Gives,reduceCtorEq]

theorem gives_pages {m : ℕ} : (Role.pages (c := c) m).Gives p e ↔ e = .pages p m := by
  cases e with
  | bytes a n => simp only [Role.Gives,reduceCtorEq]
  | pages q n => simp only [Role.Gives,Holding.pages.injEq]

theorem gives_zone {z : Zone c} :
    (Role.zone true z).Gives p e ↔ ∃ k ∈ z.live, e = .bytes (z.chunkAt p k) z.size := by
  cases e with
  | bytes a n => simp only [Role.Gives,Holding.bytes.injEq]
  | pages q n => simp only [Role.Gives,reduceCtorEq,and_false,exists_false]

/-- The header of the block at `p` is written, while the clients hold other blocks. -/
theorem HeaderOnly.spares_of {r : Role c} (H : HeaderOnly p h h') (S : Shape L')
    (hr : L'.role p = some r) (hrole : ∀ q, q ≠ p → L'.role q = L.role q) (hp : ∀ e, ¬L.At p e) :
    Spares L h h' := by
  rintro e x ⟨q,hat⟩ hx
  have hqp : q ≠ p := by
    rintro rfl
    exact hp e hat
  have hat' : L'.At q e := by
    unfold Layout.At
    rw [hrole q hqp]
    exact hat
  refine H x fun f heq => hqp (S.unique (S.at_owns hat' hx) ?_)
  rw [heq,pageNo_headerField (S.page_lt hr)]
  have := S.bounds hr
  exact ⟨r,hr,by omega,by omega⟩

theorem Layout.put_put {r r' : Option (Role c)} : (L.put p r).put p r' = L.put p r' := by
  simp only [Layout.put,Function.update_idem]

theorem Layout.not_at_of_none (hp : L.role p = none) : ¬L.At p e := by
  rintro ⟨r,hr,-⟩
  rw [hp] at hr
  cases hr

end adding

section large

variable {L : Layout c} {h : SlabHeap} {fuel : ℕ} {n : Word}

/-- A size is rounded up to pages. -/
theorem toNat_pageAlign (n : Word) :
    (WIDTH_ALIGN n CONFIG_MM_PAGE_SIZE).toNat = (n.toNat+4095)%2^32/4096*4096 := by
  have hmask : CONFIG_MM_PAGE_SIZE-1 = mask 32 12 := by decide
  have hsub : n+CONFIG_MM_PAGE_SIZE-1 = n+4095 := by
    unfold CONFIG_MM_PAGE_SIZE
    bv_omega
  unfold WIDTH_ALIGN
  rw [hmask,toNat_and_not_mask,hsub,BitVec.toNat_add]
  rfl

theorem toNat_pageCount (n : Word) :
    ((WIDTH_ALIGN n CONFIG_MM_PAGE_SIZE)>>>CONFIG_MM_PAGE_BITS).toNat*4096 =
      (WIDTH_ALIGN n CONFIG_MM_PAGE_SIZE).toNat := by
  rw [BitVec.toNat_ushiftRight,toNat_pageAlign,Nat.shiftRight_eq_div_pow]
  unfold CONFIG_MM_PAGE_BITS
  omega

/-- A large block. -/
theorem Kept.kmallocLarge (K : Kept L h) (hfuel : c.count < fuel) (down : Bool)
    (hn : ¬n.toNat < c.limit) :
    (kmallocLarge fuel down n).run h = some (0,h) ∨
    ∃ b L' h', (kmallocLarge fuel down n).run h = some (b,h') ∧ b ≠ 0 ∧ Granted L h n b L' h' := by
  have hlen : c.usable n = (WIDTH_ALIGN n CONFIG_MM_PAGE_SIZE).toNat := if_neg hn
  have hround := toNat_pageCount n
  rw [← hlen] at hround
  unfold Heap.kmallocLarge
  generalize WIDTH_ALIGN n CONFIG_MM_PAGE_SIZE = size at *
  generalize hnp : size>>>CONFIG_MM_PAGE_BITS = np at *
  rcases K.page_alloc hfuel down np with hrun | ⟨h₁,a,hrun,hnone,K₁,hs₁,ha₁⟩
  · left
    simp only [run_bind,hnp,hrun,Option.bind_some,if_true,run_pure]
  right
  have S₁ := K₁.shape
  have hrole : (L.put a (some (.pages np.toNat))).role a = some (.pages np.toNat) := Layout.put_self
  have hin := S₁.inside a _ hrole
  have hbounds := S₁.bounds hrole
  have hend := c.end_lt
  rw [Role.span] at hin hbounds
  have hne : ptr a ≠ 0 := ptr_ne_zero hbounds.1 (S₁.page_lt hrole)
  have hkup : h₁.btokup (ptr a) = c.entry a :=
    K₁.setup.btokup ⟨hin.1,by omega⟩ (pageNo_ptr (S₁.page_lt hrole))
  obtain ⟨husage,hframe⟩ := setUsage_spec PAGE_TYPE_LARGE np (by decide) (by omega) (c.entry a) h₁
  have honly : EntriesOnly c a np.toNat h₁
      ((h₁.setUsage (c.entry a) PAGE_TYPE_LARGE np).use size) :=
    fun x hx => hframe x (hx 0 hbounds.2.1)
  have hrecord : Recorded ((h₁.setUsage (c.entry a) PAGE_TYPE_LARGE np).use size) a
      (.large (c := c) np.toNat) := husage.frame rfl
  obtain ⟨K₂,hs₂⟩ := K₁.entries hrole trivial (.large np.toNat) trivial rfl honly rfl hrecord
  rw [Layout.put_put] at K₂
  refine ⟨ptr a,_,_,?_,hne,K₂,?_,?_,?_,?_⟩
  · simp only [run_bind,hnp,hrun,Option.bind_some,if_neg hne,run_modify,run_lock,run_unlock,
      run_pure,hkup]
  · rw [toNat_ptr (S₁.page_lt hrole),← hround]
    exact K₂.shape.adds_first (fun q hq => Layout.put_of_ne hq) Layout.put_self
      (fun e => Layout.not_at_of_none hnone) fun e => gives_large
  · refine hs₁.trans (hs₂.mono fun e => ?_)
    have A : Adds L (L.put a (some (.pages np.toNat))) (.pages a np.toNat) :=
      S₁.adds_first (fun q hq => Layout.put_of_ne hq) hrole
        (fun e => Layout.not_at_of_none hnone) fun e => gives_pages
    exact A.sub
  · intro T
    refine T.change (p := a) (fun q hq => Layout.put_of_ne hq) fun z hz => ?_
    rw [Layout.put_self] at hz
    cases hz
  · have haccount : account (h₁.setUsage (c.entry a) PAGE_TYPE_LARGE np) = account h := ha₁
    exact ⟨size,hlen.symm,account_use haccount size⟩

end large

section small

variable {L L₀ : Layout c} {h h₀ : SlabHeap} {fuel p : ℕ} {n m zi : Word} {i : Fin NZONES}

/-- A zone has room for four chunks of the classes that are used. -/
theorem ClassOf.room (C : ClassOf n m zi i) (hn : n.toNat < c.limit) :
    4*classSize i ≤ c.zonePages*4096 := by
  have hzones := c.zones
  have hsize := classSize_bounds i
  have hsmall := C.small
  omega

theorem Config.usable_small (hn : n.toNat < c.limit)
    (C : ClassOf n (zoneindex n).1 zi i) : c.usable n = classSize i := by
  rw [Config.usable,if_pos hn,C.size]

/-- A new zone gives its first chunk. -/
theorem Kept.grantNew (K₀ : Kept L₀ h₀) (hr : L₀.role p = some (.pages c.zonePages))
    (husage : ∀ j, j < c.zonePages → Usage h₀ (c.entry (p+j)) PAGE_TYPE_SMALL j)
    (hn : n.toNat < c.limit) (C : ClassOf n (zoneindex n).1 zi i)
    (hrole : ∀ q, q ≠ p → L₀.role q = L.role q) (hold : ∀ e, ¬L.At p e)
    (hspares : Spares L h h₀) (haccount : account h₀ = account h) :
    ∃ b L' h', h₀.newZone (ptr p) (zoneindex n).1 zi i = (b,h') ∧ b ≠ 0 ∧ Granted L h n b L' h' := by
  have hsmall := ClassOf.room (c := c) C hn
  obtain ⟨h',hnew,hheader,K',hused⟩ := K₀.newZone hr husage C.size C.toNat hsmall
  have hself : (L₀.make i p (Zone.first i hsmall)).role p = some (.zone true (Zone.first i hsmall)) :=
    Function.update_self ..
  have hother : ∀ q, q ≠ p → (L₀.make i p (Zone.first i hsmall)).role q = L.role q :=
    fun q hq => (Function.update_of_ne hq ..).trans (hrole q hq)
  have hend := K'.shape.zone_end hself
  have hlt : 0 < (Zone.first (c := c) i hsmall).total := by
    have := (Zone.first (c := c) i hsmall).two_le_total
    omega
  refine ⟨_,_,h',hnew,Zone.chunk_ne_zero _ hend hlt,K',?_,?_,?_,?_⟩
  · rw [Zone.toNat_chunk _ hend hlt,Config.usable_small hn C]
    refine K'.shape.adds_first hother hself hold fun e => ?_
    simp only [gives_zone,Zone.first,List.mem_singleton,exists_eq_left,Zone.size]
  · exact hspares.trans (hheader.spares_of K'.shape hself hother hold)
  · intro T
    refine T.change hother fun z hz => ?_
    rw [hself] at hz
    cases hz
    simp [Zone.first]
  · exact ⟨_,by rw [Config.usable_small hn C,C.size],hused.trans (account_use haccount _)⟩

/-- The first zone of a list gives a chunk. -/
theorem Kept.grantChunk {ps : List ℕ} (K : Kept L h) (hl : L.lists i = p::ps)
    (hn : n.toNat < c.limit) (C : ClassOf n (zoneindex n).1 zi i) :
    ∃ b L' h', fromZone (zoneindex n).1 i h = some (some b,h') ∧ b ≠ 0 ∧ Granted L h n b L' h' := by
  obtain ⟨z,z',k,h',hz,hi,hrun,hheader,hindex,hlive,hnot,K',s,hs,hused⟩ := K.fromZone_cons hl C.size
  have hself : (L.take i p z').role p = some (.zone true z') := Function.update_self ..
  have hother : ∀ q, q ≠ p → (L.take i p z').role q = L.role q :=
    fun q hq => Function.update_of_ne hq ..
  have hchunk : ∀ l, z'.chunkAt p l = z.chunkAt p l := fun l => by
    rw [Zone.chunkAt,Zone.chunkAt,hindex]
  have hsize : z'.size = z.size := by rw [Zone.size,Zone.size,hindex]
  have hend := K.shape.zone_end hz
  have hlt : k < z.total := by
    have := z'.lt_total (k := k) (Or.inl (by rw [hlive]; exact List.mem_cons_self))
    rw [Zone.total,hindex] at this
    exact this
  have husable : c.usable n = z.size := by rw [Config.usable_small hn C,Zone.size,hi]
  refine ⟨_,_,h',hrun,z.chunk_ne_zero hend hlt,K',?_,hheader.spares K.shape hz,?_,?_⟩
  · rw [z.toNat_chunk hend hlt,husable]
    refine K'.shape.adds hother (fun e => ?_) fun hat => ?_
    · rw [Layout.at_iff hself,Layout.at_iff hz,gives_zone,gives_zone]
      simp only [hlive,hchunk,hsize,List.mem_cons,exists_eq_or_imp,or_comm]
    · rw [Layout.at_iff hz,gives_zone] at hat
      obtain ⟨l,hl,heq⟩ := hat
      have hbounds := z.size_bounds
      have hkl : k ≠ l := by
        rintro rfl
        exact hnot hl
      have := z.chunkAt_apart (p := p) hkl
      simp only [Holding.bytes.injEq] at heq
      omega
  · intro T
    refine T.change hother fun y hy => ?_
    rw [hself] at hy
    cases hy
    rw [hlive]
    exact List.cons_ne_nil _ _
  · exact ⟨s,by rw [hs,husable,Zone.size,hi],hused⟩

/-- Pages become a zone, or there are none. -/
theorem Kept.kmallocNewZone (K : Kept L h) (hfuel : c.count < fuel) (down : Bool)
    (hn : n.toNat < c.limit) (C : ClassOf n (zoneindex n).1 zi i) :
    (kmallocNewZone fuel down (zoneindex n).1 zi i).run h = some (0,h) ∨
    ∃ b L' h', (kmallocNewZone fuel down (zoneindex n).1 zi i).run h = some (b,h') ∧ b ≠ 0 ∧
      Granted L h n b L' h' := by
  unfold Heap.kmallocNewZone
  have hpages : (h.zoneSize/CONFIG_MM_PAGE_SIZE).toNat = c.zonePages := by
    rw [BitVec.toNat_udiv,K.setup.zoneSize]
    simp [CONFIG_MM_PAGE_SIZE]
  rcases K.page_alloc hfuel down (h.zoneSize/CONFIG_MM_PAGE_SIZE) with
    hrun | ⟨h₁,a,hrun,hnone,K₁,hs₁,ha₁⟩
  · left
    simp only [run_bind,run_unlock,Option.bind_some,run_get,hrun,if_true,run_pure]
  right
  rw [hpages] at K₁
  have S₁ := K₁.shape
  have hrole : (L.put a (some (.pages c.zonePages))).role a = some (.pages c.zonePages) :=
    Layout.put_self
  have hin := S₁.inside a _ hrole
  have hbounds := S₁.bounds hrole
  rw [Role.span] at hin hbounds
  have hne : ptr a ≠ 0 := ptr_ne_zero hbounds.1 (S₁.page_lt hrole)
  have hkup : h₁.btokup (ptr a) = c.entry a :=
    K₁.setup.btokup ⟨hin.1,by omega⟩ (pageNo_ptr (S₁.page_lt hrole))
  have hcount : h₁.zonePageCnt.toNat = c.zonePages := K₁.setup.zonePageCnt
  have hzone := c.zonePages_bounds
  obtain ⟨honly,hrest,husage⟩ := setUsages_spec S₁ hin.1 c.zonePages hin.2 PAGE_TYPE_SMALL
    (BitVec.ofNat 32) (by decide) (fun j hj => by rw [BitVec.toNat_ofNat]; omega) h₁
  generalize hh₂ : setUsages (c.entry a) PAGE_TYPE_SMALL (BitVec.ofNat 32) c.zonePages h₁ = h₂ at *
  obtain ⟨K₂,hs₂⟩ := K₁.entries hrole trivial (.pages c.zonePages) trivial rfl honly
    (by rw [← hrest]) trivial
  rw [Layout.put_same hrole] at K₂
  have hsub : ∀ e, L.Live e → (L.put a (some (.pages c.zonePages))).Live e := by
    have A : Adds L (L.put a (some (.pages c.zonePages))) (.pages a c.zonePages) :=
      S₁.adds_first (fun q hq => Layout.put_of_ne hq) hrole
        (fun e => Layout.not_at_of_none hnone) fun e => gives_pages
    exact fun e => A.sub
  obtain ⟨b,L',h',hnew,hb,G⟩ := K₂.grantNew hrole
    (fun j hj => by
      have := husage j hj
      rwa [BitVec.toNat_ofNat,Nat.mod_eq_of_lt (by omega)] at this) hn C
    (fun q hq => Layout.put_of_ne hq) (fun e => Layout.not_at_of_none hnone)
    (hs₁.trans (hs₂.mono hsub)) (by rw [← ha₁,← hrest]; rfl)
  refine ⟨b,L',h',?_,hb,G⟩
  simp only [run_bind,run_unlock,run_lock,Option.bind_some,run_get,hrun,if_neg hne,run_pure,
    run_modify,run_act,hkup,hcount,hh₂,hnew]

/-- A chunk of a zone. -/
theorem Kept.kmallocSmall (K : Kept L h) (hfuel : c.count < fuel) (down : Bool) (hpos : n ≠ 0)
    (hn : n.toNat < c.limit) :
    (kmallocSmall fuel down n).run h = some (0,h) ∨
    ∃ b L' h', (kmallocSmall fuel down n).run h = some (b,h') ∧ b ≠ 0 ∧ Granted L h n b L' h' := by
  have hzones := c.zones
  obtain ⟨i,C⟩ := zoneindex_class hpos (show n.toNat < 16384 by omega)
  unfold Heap.kmallocSmall
  simp only [run_bind,run_lock,Option.bind_some,run_act,C.index,Option.map_some]
  cases hl : L.lists i with
  | cons p ps =>
      obtain ⟨b,L',h',hrun,hb,G⟩ := K.grantChunk hl hn C
      refine Or.inr ⟨b,L',h',?_,hb,G⟩
      simp only [hrun,Option.bind_some,run_bind,run_unlock,run_pure]
  | nil =>
      simp only [K.fromZone_nil hl,Option.bind_some,run_bind,run_act]
      cases hs : L.spare with
      | cons p ps =>
          obtain ⟨h₁,hrun,hmem,haccount,husage,K₁⟩ := K.fromFreeZones_cons hs
          have hold : ∀ e, ¬L.At p e := by
            intro e hat
            obtain ⟨z,hz⟩ := (K.spare.mem p).mp (by rw [hs]; exact List.mem_cons_self)
            rw [Layout.at_iff hz] at hat
            exact hat
          obtain ⟨b,L',h',hnew,hb,G⟩ := K₁.grantNew (Function.update_self ..) husage hn C
            (fun q hq => Function.update_of_ne hq ..) hold (fun e x _ _ => by rw [hmem]) haccount
          refine Or.inr ⟨b,L',h',?_,hb,G⟩
          simp only [hrun,Option.bind_some,run_bind,run_act,hnew,run_unlock,run_pure]
      | nil =>
          simp only [K.fromFreeZones_nil hs,Option.bind_some]
          exact K.kmallocNewZone hfuel down hn C

end small

section calls

variable {L L' : Layout c} {h h' : SlabHeap} {fuel p k len : ℕ} {n b : Word} {z : Zone c}

/-- `kmalloc` returns null and changes nothing, or grants a block. -/
theorem Kept.kmalloc (K : Kept L h) (hfuel : c.count < fuel) (down : Bool) (n : Word) :
    (kmalloc fuel down n).run h = some (0,h) ∨
    ∃ b L' h', (kmalloc fuel down n).run h = some (b,h') ∧ b ≠ 0 ∧ n ≠ 0 ∧ Granted L h n b L' h' := by
  unfold Heap.kmalloc
  by_cases hn : n = 0
  · left
    rw [if_pos hn,run_pure]
  simp only [if_neg hn,run_bind,run_get,Option.bind_some,BitVec.le_def,K.setup.zoneLimit]
  by_cases hlimit : n.toNat < c.limit
  · simp only [if_neg (Nat.not_le.mpr hlimit),hn,not_false_eq_true,ne_eq,true_and]
    exact K.kmallocSmall hfuel down hn hlimit
  · simp only [if_pos (Nat.not_lt.mp hlimit),hn,not_false_eq_true,ne_eq,true_and]
    exact K.kmallocLarge hfuel down hlimit

/-- A request that is rounded up to no length at all is too large. -/
theorem Config.le_usable (c : Config) (hn : n ≠ 0) (hpos : 0 < c.usable n) :
    n.toNat ≤ c.usable n := by
  unfold Config.usable at hpos ⊢
  split_ifs at hpos ⊢ with hlimit
  · have hzones := c.zones
    obtain ⟨i,C⟩ := zoneindex_class hn (show n.toNat < 16384 by omega)
    rw [C.size]
    exact C.fits
  · rw [toNat_pageAlign] at hpos ⊢
    omega

theorem Granted.fits (G : Granted L h n b L' h') (hn : n ≠ 0) : n.toNat ≤ c.usable n := by
  obtain ⟨p,r,hr,hg⟩ := G.adds.self
  exact c.le_usable hn (G.kept.shape.gives_inside hr hg).2.2

/-- What `kfree` does: the block `b` of `len` bytes is no longer held. -/
structure Released (L : Layout c) (h : SlabHeap) (b : Word) (len : ℕ) (L' : Layout c)
    (h' : SlabHeap) : Prop where
  kept : Kept L' h'
  adds : Adds L' L (.bytes b.toNat len)
  spares : Spares L' h h'
  tidy : L.Tidy → L'.Tidy
  used : ∃ s : Word, s.toNat = len ∧ account h' = (h.usedMem-s,h.maxMem)

theorem Kept.kfreeLarge {m : ℕ} (K : Kept L h) (hfuel : c.count < fuel) (down : Bool)
    (hr : L.role p = some (.large m)) :
    ∃ L' h', (kfree fuel down (ptr p)).run h = some ((),h') ∧
      Released L h (ptr p) (m*4096) L' h' := by
  have S := K.shape
  have hin := S.inside p _ hr
  have hbounds := S.bounds hr
  rw [Role.span] at hin hbounds
  have hlt := S.page_lt hr
  have hne : ptr p ≠ 0 := ptr_ne_zero hbounds.1 hlt
  have hpage := pageNo_ptr hlt
  have hkup : h.btokup (ptr p &&& ~~~CONFIG_MM_PAGE_MASK) = c.entry p := by
    rw [K.kup (p := p) ⟨_,hr,by omega,by rw [Role.span]; omega⟩,hpage]
  have husage : Usage h (c.entry p) PAGE_TYPE_LARGE m := K.records p _ hr
  obtain ⟨size,hsize⟩ : ∃ size, usageSize (h.mem (c.entry p)) = size := ⟨_,rfl⟩
  have hm : size.toNat = m := by rw [← hsize,husage.size]
  obtain ⟨h₁,hh₁⟩ : ∃ h₁ : SlabHeap, {h.set (c.entry p) (withSize (h.mem (c.entry p)) 0) with
      usedMem := h.usedMem-size*CONFIG_MM_PAGE_SIZE} = h₁ := ⟨_,rfl⟩
  have honly : EntriesOnly c p m h h₁ := by
    intro x hx
    rw [← hh₁]
    exact mem_set_of_ne (hx 0 hbounds.2.1)
  obtain ⟨K₁,hs₁⟩ := K.entries hr trivial (.pages m) trivial rfl honly (by rw [← hh₁]; rfl) trivial
  have hrole : (L.put p (some (.pages m))).role p = some (.pages size.toNat) := by
    rw [Layout.put_self,hm]
  obtain ⟨h₂,hrun,K₂,hs₂,ha₂⟩ := K₁.page_free hrole hfuel down
  rw [Layout.put_put] at K₂ hs₂
  have hother : ∀ q, q ≠ p → L.role q = (L.put p none).role q :=
    fun q hq => (Layout.put_of_ne hq).symm
  have A : Adds (L.put p none) L (.bytes (ptr p).toNat (m*4096)) := by
    rw [toNat_ptr hlt]
    exact S.adds_first hother hr (fun e => Layout.not_at_of_none Layout.put_self)
      fun e => gives_large
  refine ⟨L.put p none,h₂,?_,K₂,A,(hs₁.mono fun e => A.sub).trans hs₂,fun T => ?_,
    size*CONFIG_MM_PAGE_SIZE,?_,?_⟩
  · unfold Heap.kfree
    simp only [if_neg hne,run_bind,run_get,Option.bind_some,hkup,husage.type,if_true,run_lock,
      run_act,hsize,run_unlock]
    rw [← hrun,← hh₁]
    rfl
  · refine T.change (p := p) (fun q hq => Layout.put_of_ne hq) fun z hz => ?_
    rw [Layout.put_self] at hz
    cases hz
  · have hend := c.end_lt
    rw [BitVec.toNat_mul,hm]
    exact Nat.mod_eq_of_lt (by simp only [CONFIG_MM_PAGE_SIZE]; change _*4096 < _; omega)
  · rw [ha₂,← hh₁]
    rfl

/-- The block of a chunk that is freed gives the other live chunks. -/
theorem Shape.adds_chunk (S : Shape L) (hz : L.role p = some (.zone true z)) (hk : k ∈ z.live)
    (hother : ∀ q, q ≠ p → L'.role q = L.role q)
    (hat : ∀ e, L'.At p e ↔ ∃ l ∈ z.live, l ≠ k ∧ e = .bytes (z.chunkAt p l) z.size) :
    Adds L' L (.bytes (z.chunkAt p k) z.size) := by
  refine S.adds (fun q hq => (hother q hq).symm) (fun e => ?_) fun h => ?_
  · rw [Layout.at_iff hz,gives_zone,hat]
    constructor
    · rintro ⟨l,hl,he⟩
      by_cases hlk : l = k
      · exact Or.inr (hlk ▸ he)
      · exact Or.inl ⟨l,hl,hlk,he⟩
    · rintro (⟨l,hl,-,he⟩ | he)
      · exact ⟨l,hl,he⟩
      · exact ⟨k,hk,he⟩
  · obtain ⟨l,hl,hlk,he⟩ := (hat _).mp h
    have hbounds := z.size_bounds
    have := z.chunkAt_apart (p := p) hlk
    simp only [Holding.bytes.injEq] at he
    omega

theorem Kept.kfreeChunk (K : Kept L h) (hfuel : c.count < fuel) (down : Bool)
    (hz : L.role p = some (.zone true z)) (hk : k ∈ z.live) :
    ∃ L' h', (kfree fuel down (z.chunk p k)).run h = some ((),h') ∧
      Released L h (z.chunk p k) z.size L' h' := by
  have S := K.shape
  have hend := S.zone_end hz
  have hlt := z.lt_total (Or.inl hk)
  have hne := z.chunk_ne_zero hend hlt
  have hpage := z.pageNo_chunk hend hlt
  have htype : usageType (h.mem (h.btokup (z.chunk p k &&& ~~~CONFIG_MM_PAGE_MASK))) ≠
      PAGE_TYPE_LARGE := by
    rw [(K.usage_small hz hpage).type]
    decide
  obtain ⟨out,h₁,L₁,r,hrun,K₁,F,hout,hused⟩ := K.freeChunk hfuel hz hk
  have htoNat := z.toNat_chunk hend hlt
  have hbytes : ∀ e, (∀ q n, ¬r.Gives p (.pages q n)) →
      (r.Gives p e ↔ ∃ l ∈ z.live, l ≠ k ∧ e = .bytes (z.chunkAt p l) z.size) := by
    intro e hpages
    cases e with
    | bytes a n => simp only [F.gives,Holding.bytes.injEq]
    | pages q n => simp only [hpages q n,reduceCtorEq,and_false,exists_false]
  unfold Heap.kfree
  simp only [if_neg hne,run_bind,run_get,Option.bind_some,if_neg htype,run_lock,run_act,hrun]
  rcases hout with ⟨rfl,hpages,hs⟩ | ⟨rfl,rfl,hs⟩
  · refine ⟨L₁,h₁,by simp only [run_unlock],K₁,?_,hs,F.tidy,hused⟩
    rw [htoNat]
    refine S.adds_chunk hz hk F.role_other fun e => ?_
    rw [Layout.at_iff F.role_self,hbytes e hpages]
  · have hzone : (h₁.zoneSize/CONFIG_MM_PAGE_SIZE).toNat = c.zonePages := by
      rw [BitVec.toNat_udiv,K₁.setup.zoneSize]
      simp [CONFIG_MM_PAGE_SIZE]
    have hrole : L₁.role p = some (.pages (h₁.zoneSize/CONFIG_MM_PAGE_SIZE).toNat) := by
      rw [F.role_self,hzone]
    obtain ⟨h₂,hrun₂,K₂,hs₂,ha₂⟩ := K₁.page_free hrole hfuel down
    refine ⟨L₁.put p none,h₂,?_,K₂,?_,hs.trans hs₂,fun T => ?_,?_⟩
    · simp only [run_bind,run_unlock,run_get,Option.bind_some,hrun₂]
    · rw [htoNat]
      refine S.adds_chunk hz hk (fun q hq => (Layout.put_of_ne hq).trans (F.role_other q hq))
        fun e => ⟨fun h => (Layout.not_at_of_none Layout.put_self h).elim,?_⟩
      rintro ⟨l,hl,hlk,-⟩
      exact ((F.gives _ _).mpr ⟨l,hl,hlk,rfl,rfl⟩).elim
    · refine (F.tidy T).change (p := p) (fun q hq => Layout.put_of_ne hq) fun z hz => ?_
      rw [Layout.put_self] at hz
      cases hz
    · rw [ha₂]
      exact hused

/-- `kfree` takes back a block that is held. -/
theorem Kept.kfree (K : Kept L h) (hfuel : c.count < fuel) (down : Bool)
    (hlive : L.Live (.bytes b.toNat len)) :
    ∃ L' h', (kfree fuel down b).run h = some ((),h') ∧ Released L h b len L' h' := by
  obtain ⟨p,r,hr,hg⟩ := hlive
  match r,hg with
  | .zone true z,⟨k,hk,hb,hlen⟩ =>
      rw [z.chunk_of_chunkAt (K.shape.zone_end hr) (z.lt_total (Or.inl hk)) hb,hlen]
      exact K.kfreeChunk hfuel down hr hk
  | .large m,⟨hb,hlen⟩ =>
      have hptr : b = ptr p := by
        rw [← BitVec.toNat_inj,hb,toNat_ptr (K.shape.page_lt hr)]
      rw [hptr,hlen]
      exact K.kfreeLarge hfuel down hr

end calls

end CosKernel.HeapBlocks
