import CosKernel.ZoneAllocation

/-!
# Pages and their entries of `memusage`

`page_alloc` and `page_free` add a block to the layout and remove it. What a block is used for
is written to its entries of `memusage`; by them `kfree` finds the zone of a chunk and the size
of a large block.
-/
namespace CosKernel.HeapBlocks
open SlabHeap Heap PageAllocator LinkedChain IntervalFreeList BlockMaps WordMasks
open LockedPrograms LockedPrograms.Program

variable {c : Config}

section words

variable {w t s : Word}

theorem usageType_set (ht : t.toNat < 4) : usageType (withSize (withType w t) s) = t :=
  (low_replaceHigh _ s 2).trans (low_replaceLow w (k := 2) ht)

theorem usageSize_set (hs : s.toNat < 2^30) : usageSize (withSize w s) = s :=
  high_replaceHigh w (k := 2) (by decide) hs

/-- The address of the page of a word. -/
theorem page_of (x : Word) : x &&& ~~~CONFIG_MM_PAGE_MASK = ptr (pageNo x) := by
  apply BitVec.eq_of_toNat_eq
  have hmask : CONFIG_MM_PAGE_MASK = mask 32 12 := by decide
  have hpage : pageNo x < 2^20 := by
    unfold pageNo
    omega
  rw [hmask,toNat_and_not_mask,toNat_ptr hpage]
  rfl

end words

section entries

variable {L : Layout c} {h h' : SlabHeap} {p i : ℕ} {x : Word} {r : Role c}

/-- The code finds the entry of a page. -/
theorem Setup.btokup (H : Setup c h) (hi : c.base ≤ i ∧ i < c.base+c.count) (hx : pageNo x = i) :
    h.btokup x = c.entry i := by
  have hend := c.end_lt
  have hstart := H.heapStart
  have hindex : (x-h.heapStart)>>>CONFIG_MM_PAGE_BITS = BitVec.ofNat 32 (i-c.base) := by
    apply BitVec.eq_of_toNat_eq
    unfold pageNo at hx
    rw [BitVec.toNat_ushiftRight,Nat.shiftRight_eq_div_pow,BitVec.toNat_ofNat,
      BitVec.toNat_sub_of_le (by rw [BitVec.le_def]; omega),hstart,
      Nat.mod_eq_of_lt (show i-c.base < 2^32 by omega)]
    unfold CONFIG_MM_PAGE_BITS
    omega
  have htable : h.memusage = BitVec.ofNat 32 (c.table*4096) := by
    rw [← H.memusage,BitVec.ofNat_toNat,BitVec.setWidth_eq]
  unfold SlabHeap.btokup
  rw [hindex,htable,Config.entry,BitVec.ofNat_add,BitVec.ofNat_mul (i-c.base) 4]
  rfl

/-- The code finds the entry of an address in a block. -/
theorem Kept.kup (K : Kept L h) (hx : L.Owns p (pageNo x)) :
    h.btokup (x &&& ~~~CONFIG_MM_PAGE_MASK) = c.entry (pageNo x) := by
  have hin := K.shape.owns_inside hx
  have hend := c.end_lt
  rw [page_of]
  exact K.setup.btokup hin (pageNo_ptr (by omega))

/-- The entry of a large block. -/
theorem Kept.usage_large {m : ℕ} (K : Kept L h) (hr : L.role p = some (.large m))
    (hx : x.toNat = p*4096) : Usage h (h.btokup (x &&& ~~~CONFIG_MM_PAGE_MASK)) PAGE_TYPE_LARGE m := by
  have hpage : pageNo x = p := pageNo_of hx
  have hbounds := K.shape.bounds hr
  rw [K.kup (p := p) ⟨_,hr,by omega,by omega⟩,hpage]
  exact K.records p _ hr

/-- The entries of a zone. -/
theorem Kept.usage_small {b : Bool} {z : Zone c} (K : Kept L h) (hz : L.role p = some (.zone b z))
    (hx : p ≤ pageNo x ∧ pageNo x < p+c.zonePages) :
    Usage h (h.btokup (x &&& ~~~CONFIG_MM_PAGE_MASK)) PAGE_TYPE_SMALL (pageNo x-p) := by
  have husage := (K.record hz).usage (pageNo x-p) (by omega)
  rw [Nat.add_sub_of_le hx.1] at husage
  rw [K.kup (p := p) ⟨_,hz,hx⟩]
  exact husage

/-- By the entry of its page the code finds the zone of a chunk. -/
theorem Kept.zoneOf {b : Bool} {z : Zone c} (K : Kept L h) (hz : L.role p = some (.zone b z))
    (hx : p ≤ pageNo x ∧ pageNo x < p+c.zonePages) : h.zoneOf x = ptr p := by
  have hin := K.shape.inside p _ hz
  have hend := c.end_lt
  rw [Role.span] at hin
  have husage := (K.usage_small hz hx).size
  have hsize : usageSize (h.mem (h.btokup (x &&& ~~~CONFIG_MM_PAGE_MASK))) =
      BitVec.ofNat 32 (pageNo x-p) := by
    rw [← husage,BitVec.ofNat_toNat,BitVec.setWidth_eq]
  unfold SlabHeap.zoneOf
  simp only [hsize]
  rw [page_of]
  apply BitVec.eq_of_toNat_eq
  have h₁ := toNat_ptr (show pageNo x < 2^20 by omega)
  have h₂ := toNat_ptr (show p < 2^20 by omega)
  have h₃ : (BitVec.ofNat 32 (pageNo x-p)*CONFIG_MM_PAGE_SIZE).toNat = (pageNo x-p)*4096 := by
    rw [BitVec.toNat_mul,BitVec.toNat_ofNat,Nat.mod_eq_of_lt (show pageNo x-p < 2^32 by omega)]
    exact Nat.mod_eq_of_lt (by simp only [CONFIG_MM_PAGE_SIZE]; change _*4096 < _; omega)
  rw [BitVec.toNat_sub_of_le (by rw [BitVec.le_def]; omega)]
  omega

/-- Only the entries of `memusage` for `n` pages from `p` on have changed. -/
def EntriesOnly (c : Config) (p n : ℕ) (h h' : SlabHeap) : Prop :=
  ∀ x, (∀ j, j < n → x ≠ c.entry (p+j)) → h'.mem x = h.mem x

theorem entry_add (hp : c.base ≤ p) (j : ℕ) : c.entry p+BitVec.ofNat 32 j*4 = c.entry (p+j) := by
  have hsum : c.table*4096+(p+j-c.base)*4 = c.table*4096+(p-c.base)*4+j*4 := by omega
  rw [Config.entry,Config.entry,hsum,BitVec.ofNat_add (c.table*4096+(p-c.base)*4),
    BitVec.ofNat_mul j 4]
  rfl

/-- An entry is set. -/
theorem setUsage_spec (type size : Word) (htype : type.toNat < 4) (hsize : size.toNat < 2^30)
    (x : Word) (h : SlabHeap) : Usage (h.setUsage x type size) x type size.toNat ∧
      ∀ y, y ≠ x → (h.setUsage x type size).mem y = h.mem y := by
  have hmem : (h.setUsage x type size).mem x = withSize (withType (h.mem x) type) size := mem_set_self
  refine ⟨⟨?_,?_⟩,fun y hy => mem_set_of_ne hy⟩
  · rw [hmem,usageType_set htype]
  · rw [hmem,usageSize_set hsize]

/-- The loops that set the entries of a zone. -/
theorem setUsages_spec (S : Shape L) (hp : c.base ≤ p) (n : ℕ) (hn : p+n ≤ c.base+c.count)
    (type : Word) (size : ℕ → Word) (htype : type.toNat < 4)
    (hsize : ∀ j, j < n → (size j).toNat < 2^30) (h : SlabHeap) : EntriesOnly c p n h (setUsages (c.entry p) type size n h) ∧
      {setUsages (c.entry p) type size n h with mem := h.mem} = h ∧
      ∀ j, j < n → Usage (setUsages (c.entry p) type size n h) (c.entry (p+j)) type (size j).toNat := by
  induction n with
  | zero => exact ⟨fun _ _ => rfl,rfl,fun j hj => by omega⟩
  | succ n ih =>
      obtain ⟨honly,hrest,husage⟩ := ih (by omega) fun j hj => hsize j (by omega)
      have hlast := setUsage_spec type (size n) htype (hsize n (by omega)) (c.entry (p+n))
        (setUsages (c.entry p) type size n h)
      unfold setUsages
      rw [entry_add hp]
      refine ⟨fun x hx => ?_,hrest,fun j hj => ?_⟩
      · rw [hlast.2 x (hx n (by omega))]
        exact honly x fun j hj => hx j (by omega)
      · by_cases hjn : j = n
        · rw [hjn]
          exact hlast.1
        · refine (husage j (by omega)).frame (hlast.2 _ fun heq => hjn ?_)
          have := S.entry_inj (i := p+j) (j := p+n) (by omega) (by omega) heq
          omega

theorem Role.Whole.ne_zone (hr : r.Whole) (b : Bool) (z : Zone c) : some r ≠ some (.zone b z) := by
  rintro ⟨⟩
  exact hr

theorem Role.Whole.ne_table (hr : r.Whole) : r ≠ .table := by
  rintro rfl
  exact hr

/-- A block of pages is used for something else, which is written to its entries. -/
theorem Kept.entries (K : Kept L h) (hr : L.role p = some r) (hwhole : r.Whole) (r' : Role c)
    (hwhole' : r'.Whole) (hspan : r'.span = r.span) (honly : EntriesOnly c p r.span h h')
    (hrest : {h' with mem := h.mem, usedMem := h.usedMem, maxMem := h.maxMem} = h)
    (hrecorded : Recorded h' p r') : Kept (L.put p (some r')) h' ∧ Spares L h h' := by
  have S := K.shape
  have hin := S.inside p r hr
  have hnext : ∀ q b z, L.role q = some (.zone b z) →
      h'.zone (ptr q) .next = h.zone (ptr q) .next := by
    refine fun q b z hz => honly _ fun j hj heq => S.table_ne_zone hz (S.owns_field hz .next) ?_
    rw [heq]
    exact S.owns_entry (by omega)
  constructor
  · have haside : (∀ i, ListKept (L.put p (some r')) h' i) ∧ SpareKept (L.put p (some r')) h' :=
      K.lists_aside (by rw [hr]; exact hwhole.ne_zone)
        (by rw [Layout.put_self]; exact hwhole'.ne_zone) (fun q hq => Layout.put_of_ne hq) rfl rfl
        (by rw [← hrest]) (by rw [← hrest]) (by rw [← hrest]) hnext
    refine K.replace hr hwhole.ne_table r' hwhole'.ne_table hspan rfl (fun x hx => ?_)
      (by rw [← hrest]; rfl) (by rw [← hrest]) hrecorded haside.1 haside.2
    refine honly x fun j hj heq => hx (Or.inr (Or.inl ⟨p+j,⟨r,hr,by omega,by omega⟩,heq⟩))
  · intro e x he hx
    refine honly x fun j hj heq => S.entry_private (i := p+j) (by omega) he ?_
    rw [← heq]
    exact hx

end entries

section pages

variable {L : Layout c} {h : SlabHeap} {a : ℕ} {fuel : ℕ}

/-- `page_alloc` adds a block to the layout. -/
theorem Kept.page_alloc (K : Kept L h) (hfuel : c.count < fuel) (down : Bool) (npages : Word) :
    (page_alloc fuel down npages).run h = some (0,h) ∨
    ∃ h' a, (page_alloc fuel down npages).run h = some (ptr a,h') ∧ L.role a = none ∧
      Kept (L.put a (some (.pages npages.toNat))) h' ∧ Spares L h h' ∧ account h' = account h := by
  obtain ⟨blocks,xs,hp,hT⟩ := K.divided
  rcases hp.page_alloc c.end_lt hfuel down npages with hrun | ⟨b,h',a,ys,hrun,hn,hb,-,hp',hw⟩
  · exact Or.inl hrun
  have S := K.shape
  have hpos : 0 < npages.toNat := by bv_omega
  have hnodup : (cells ((a,npages.toNat)::blocks)).Nodup := by
    have hcells := hp'.exact.nodup_iff.mpr List.nodup_range'
    rw [cells_append,List.nodup_append'] at hcells
    exact hcells.2.1
  have hnone := hT.fresh hnodup hpos
  have hT' : Tiles Role.span (L.put a (some (.pages npages.toNat))).role ((a,npages.toNat)::blocks) :=
    Tiles.put (r := Role.pages npages.toNat) hT hnodup hpos
  have hfree : ∀ x, pageNo x ∈ cells xs → ∀ q, ¬L.Owns q (pageNo x) :=
    fun x hx q hq => hp.disjoint hx (hT.owns_iff.mp ⟨q,hq⟩)
  have hmem : ∀ x q, L.Owns q (pageNo x) → h'.mem x = h.mem x :=
    fun x q hq => hw.mem x (fun hx => hfree x hx q hq) nofun
  have haside : (∀ i, ListKept (L.put a (some (.pages npages.toNat))) h' i) ∧
      SpareKept (L.put a (some (.pages npages.toNat))) h' :=
    K.lists_aside (by rw [hnone]; simp) (by rw [Layout.put_self]; simp)
      (fun q hq => Layout.put_of_ne hq) rfl rfl (by rw [← hw.rest]) (by rw [← hw.rest])
      (by rw [← hw.rest]) fun q b z hz => hmem _ q (S.owns_field hz .next)
  refine Or.inr ⟨h',a,?_,hnone,K.change (p := a) ?_ (fun q hq => Layout.put_of_ne hq) ?_ ?_
    (by rw [← hw.rest]; rfl) ⟨_,ys,hp',hT'⟩ haside.1 haside.2,?_,by rw [← hw.rest]; rfl⟩
  · rw [hrun]
    have : b = ptr a := BitVec.eq_of_toNat_eq (by rw [hb,toNat_ptr (by omega)])
    rw [this]
  · rintro rfl
    rw [(S.table c.table).mpr rfl] at hnone
    cases hnone
  · rintro r hr
    rw [Layout.put_self] at hr
    cases hr
    exact ⟨by simp,trivial⟩
  · refine fun x hx => hw.mem x (fun hcell => hx (Or.inl fun q hq => ?_)) nofun
    exact (hfree x hcell q hq).elim
  · rintro e x ⟨q,hat⟩ hx
    exact hmem x q (S.at_owns hat hx)

/-- `page_free` removes a block from the layout. -/
theorem Kept.page_free {npages : Word} (K : Kept L h) (hr : L.role a = some (.pages npages.toNat))
    (hfuel : c.count < fuel) (down : Bool) :
    ∃ h', (page_free fuel down (ptr a) npages).run h = some ((),h') ∧ Kept (L.put a none) h' ∧
      Spares (L.put a none) h h' ∧ account h' = account h := by
  have S := K.shape
  obtain ⟨blocks,xs,hp,hT⟩ := K.divided
  obtain ⟨rest,hperm,hT'⟩ := hT.remove hr
  have hbounds := S.bounds hr
  rw [Role.span] at hbounds
  obtain ⟨h',ys,hrun,hp',hw⟩ := (hp.perm hperm).page_free c.base_pos c.end_lt hfuel down
    (toNat_ptr (by omega)) (by bv_omega)
  have hfree : ∀ x, pageNo x = a ∨ pageNo x ∈ cells xs → ∀ q, L.Owns q (pageNo x) → q = a := by
    rintro x (hx | hx) q hq
    · refine S.unique hq ⟨_,hr,?_⟩
      rw [Role.span]
      omega
    · exact (hp.disjoint hx (hT.owns_iff.mp ⟨q,hq⟩)).elim
  have hmem : ∀ x q, q ≠ a → L.Owns q (pageNo x) → h'.mem x = h.mem x :=
    fun x q hne hq => hw.mem x (fun hx => hne (hfree x hx q hq)) (Option.some_ne_none _).symm
  have haside : (∀ i, ListKept (L.put a none) h' i) ∧ SpareKept (L.put a none) h' := by
    refine K.lists_aside (by rw [hr]; simp) (by rw [Layout.put_self]; simp)
      (fun q hq => Layout.put_of_ne hq) rfl rfl (by rw [← hw.rest]) (by rw [← hw.rest])
      (by rw [← hw.rest]) fun q b z hz => hmem _ q ?_ (S.owns_field hz .next)
    rintro rfl
    rw [hr] at hz
    cases hz
  refine ⟨h',hrun,K.change (p := a) ?_ (fun q hq => Layout.put_of_ne hq) ?_ ?_
    (by rw [← hw.rest]; rfl) ⟨rest,ys,hp',hT'⟩ haside.1 haside.2,?_,by rw [← hw.rest]; rfl⟩
  · rintro rfl
    rw [(S.table c.table).mpr rfl] at hr
    cases hr
  · rintro r hs
    rw [Layout.put_self] at hs
    cases hs
  · exact fun x hx => hw.mem x (fun hcell => hx (Or.inl (hfree x hcell))) (Option.some_ne_none _).symm
  · rintro e x ⟨q,s,hs,hg⟩ hx
    have hqa : q ≠ a := by
      rintro rfl
      rw [Layout.put_self] at hs
      cases hs
    rw [Layout.put_of_ne hqa] at hs
    exact hmem x q hqa (S.at_owns ⟨s,hs,hg⟩ hx)

end pages

end CosKernel.HeapBlocks
