import CosKernel.ZoneRetirement

/-!
# Giving chunks back to zones

`kfree` puts a chunk into the free list of its zone. A zone that was full enters its list in
`zone_array`. When the zone has no live chunk left and is not alone in its list, it is retired.
-/
namespace CosKernel.HeapBlocks
open SlabHeap PageAllocator LinkedChain IntervalFreeList BlockMaps

variable {c : Config}

section returning

variable {L : Layout c} {h h' : SlabHeap} {p k : ℕ} {z : Zone c}

/-- The chunk `k` has been put into the free list of the zone at `p`, and the zone is in its
list of `zone_array`. -/
structure Returned (p k : ℕ) (z : Zone c) (h h' : SlabHeap) : Prop where
  mem : ∀ x, (∀ f : ZoneField, x ≠ ptr p+f.offset) → x ≠ z.chunk p k → h'.mem x = h.mem x
  chunk : h'.mem (z.chunk p k) = h.zone (ptr p) .freechunk
  freechunk : h'.zone (ptr p) .freechunk = z.chunk p k
  nfree : h'.zone (ptr p) .nfree = h.zone (ptr p) .nfree+1
  others : ∀ f, f ≠ .freechunk → f ≠ .nfree → f ≠ .next →
    h'.zone (ptr p) f = h.zone (ptr p) f
  full : h.zone (ptr p) .nfree = 0 →
    h'.zoneArray = Function.update h.zoneArray z.index (ptr p) ∧
      h'.zone (ptr p) .next = h.zoneArray z.index
  more : h.zone (ptr p) .nfree ≠ 0 → h'.zoneArray = h.zoneArray ∧
    h'.zone (ptr p) .next = h.zone (ptr p) .next
  used : account h' = (h.usedMem-h.zone (ptr p) .chunksize,h.maxMem)
  rest : {h' with
    mem := h.mem
    zoneArray := h.zoneArray
    usedMem := h.usedMem} = h

/-- The zone at `p`, in use, becomes `z'`; if it was full it enters its list. -/
def Layout.release (L : Layout c) (p : ℕ) (z z' : Zone c) : Layout c where
  role := Function.update L.role p (some (.zone true z'))
  lists := if z.live.length < z.total then L.lists else
    Function.update L.lists z.index (p::L.lists z.index)
  spare := L.spare

theorem Layout.release_self {z' : Zone c} : (L.release p z z').role p = some (.zone true z') :=
  Function.update_self ..

theorem Layout.release_other {z' : Zone c} (q : ℕ) (hq : q ≠ p) : (L.release p z z').role q = L.role q :=
  Function.update_of_ne hq ..

theorem Zone.length_give (z : Zone c) (hk : k ∈ z.live) : (z.give hk).live.length+1 = z.live.length := by
  have hpos : 0 < z.live.length := List.length_pos_of_mem hk
  change (z.live.erase k).length+1 = _
  rw [List.length_erase_of_mem hk]
  omega

/-- A zone to which a chunk has been given is in the list of its index, and in no other one. -/
theorem Layout.release_ready (L : Layout c) (hk : k ∈ z.live) (j : Fin NZONES) :
    (L.release p z (z.give hk)).Ready j p ↔ j = z.index := by
  have hgive := z.length_give hk
  have hlength := z.length_le
  rw [Layout.ready_iff L.release_self,eq_comm (a := j)]
  refine ⟨And.left,fun h => ⟨h,?_⟩⟩
  change _ < z.total
  omega

theorem Returned.held (R : Returned p k z h h') (H : Held h p z) (hp : p+c.zonePages ≤ 2^20)
    (hk : k ∈ z.live) : Held h' p (z.give hk) := by
  have hlive := z.length_give hk
  have htotal : (z.give hk).total = z.total := rfl
  have hbound := z.total_le
  have hlength := z.length_le
  have hlt := z.lt_total (Or.inl hk)
  refine H.change rfl (fun f _ hnext hn _ hf => R.others f hf hn hnext) ?_ ?_ ?_
  · have := H.nfree
    rw [R.nfree,htotal]
    bv_omega
  · have := H.uindex
    rw [R.others .uindex (by decide) (by decide) (by decide)]
    change _ = (z.give hk).live.length+(z.free.length+1)
    omega
  · rw [R.freechunk]
    refine ⟨pointer_of_ne (z.chunk_ne_zero hp hlt),?_⟩
    change Chain _ (nextChunk h' (z.chunk p k)) (z.free.map (z.chunk p))
    rw [nextChunk,R.chunk]
    refine H.freechunk.congr fun x hx => ?_
    obtain ⟨l,hl,rfl⟩ := List.mem_map.mp hx
    have hltl := z.lt_total (Or.inr hl)
    rw [nextChunk,nextChunk,R.mem _ (z.chunk_ne_field hp hltl)]
    intro heq
    rw [z.chunk_inj hp hltl hlt heq] at hl
    exact z.not_free_of_live hk hl

/-- The words outside the zone are as before. -/
theorem Returned.mem_other (R : Returned p k z h h') (K : Kept L h) (hz : L.role p = some (.zone true z))
    (hk : k ∈ z.live) {x : Word} (hx : ¬L.Owns p (pageNo x)) : h'.mem x = h.mem x := by
  refine R.mem x (fun f heq => hx ?_) fun heq => hx ?_
  · rw [heq]
    exact K.shape.owns_field hz f
  · rw [heq]
    exact K.shape.owns_chunk hz (z.lt_total (Or.inl hk))

theorem Returned.next_other (R : Returned p k z h h') (K : Kept L h) (hz : L.role p = some (.zone true z))
    (hk : k ∈ z.live) {q : ℕ} {b : Bool} {y : Zone c} (hq : L.role q = some (.zone b y)) (hne : q ≠ p) :
    h'.zone (ptr q) .next = h.zone (ptr q) .next :=
  R.mem_other K hz hk fun hp => hne (K.shape.unique (K.shape.owns_field hq .next) hp)

/-- The list of the zone: a zone with free chunks stays where it is, a full one comes first. -/
theorem Returned.listed (R : Returned p k z h h') (K : Kept L h) (hz : L.role p = some (.zone true z))
    (hk : k ∈ z.live) : ListKept (L.release p z (z.give hk)) h' z.index := by
  have S := K.shape
  have T := K.lists z.index
  have hlength := z.length_le
  have hfull : h.zone (ptr p) .nfree = 0 ↔ ¬z.live.length < z.total := by
    have := (K.held hz).nfree
    constructor <;> intro h <;> bv_omega
  by_cases hmore : z.live.length < z.total
  · have hlist : (L.release p z (z.give hk)).lists z.index = L.lists z.index := by
      rw [Layout.release,if_pos hmore]
    obtain ⟨harray,hlink⟩ := R.more fun h => hfull.mp h hmore
    refine T.change L.release_other ?_ ?_ ?_ ?_
    · rw [hlist,harray]
      refine T.chain.congr fun x hx => ?_
      obtain ⟨q,hq,rfl⟩ := List.mem_map.mp hx
      obtain ⟨y,hy,-⟩ := (T.mem q).mp hq
      by_cases hqp : q = p
      · rw [nextZone,hqp,hlink,nextZone]
      · rw [nextZone,R.next_other K hz hk hy hqp,nextZone]
    · rw [hlist]
      exact T.nodup
    · intro q _
      rw [hlist]
    · rw [hlist,T.mem,Layout.ready_iff hz,L.release_ready]
      exact ⟨fun _ => rfl,fun _ => ⟨rfl,hmore⟩⟩
  · obtain ⟨harray,hlink⟩ := R.full (hfull.mpr hmore)
    have hp : p ∉ L.lists z.index := by
      rw [T.mem,Layout.ready_iff hz]
      exact fun h => hmore h.2
    refine T.push L.release_other ?_ hp ((L.release_ready hk _).mpr rfl) ?_ ?_ hlink ?_
    · rw [Layout.release,if_neg hmore]
      exact Function.update_self ..
    · exact ptr_ne_zero (S.bounds hz).1 (S.page_lt hz)
    · rw [harray,Function.update_self]
    · intro q hq
      obtain ⟨y,hy,-⟩ := (T.mem q).mp hq
      refine R.next_other K hz hk hy ?_
      rintro rfl
      exact hp hq

theorem Kept.release (K : Kept L h) (hz : L.role p = some (.zone true z)) (hk : k ∈ z.live)
    (R : Returned p k z h h') : Kept (L.release p z (z.give hk)) h' := by
  have S := K.shape
  have hold : ∀ j, j ≠ z.index → ¬L.Ready j p := by
    intro j hj
    rw [Layout.ready_iff hz]
    exact fun h => hj h.1.symm
  refine K.replace hz (by simp) (.zone true (z.give hk)) (by simp) rfl rfl
    (fun x hx => R.mem_other K hz hk fun ho => hx (Or.inl ho)) (by rw [← R.rest]; rfl)
    (by rw [← R.rest]) ?_
    (K.lists_of (i := z.index) (R.listed K hz hk) L.release_other ?_ hold
      (fun j hj h => hj ((L.release_ready hk j).mp h)) ?_ ?_)
    (K.spare_of (i := z.index) L.release_other rfl ?_ ?_ ?_ ?_
      fun q b y hq hne _ => R.next_other K hz hk hq hne)
  · refine ⟨R.held (K.held hz) (S.zone_end hz) hk,fun j hj => ?_,fun _ => ?_,fun hb => Bool.noConfusion hb⟩
    · refine ((K.record hz).usage j hj).frame (R.mem_other K hz hk ?_)
      have hin := S.inside p _ hz
      rw [Role.span] at hin
      exact fun ho => S.table_ne_zone hz ho (S.owns_entry (by omega))
    · rw [R.others .magic (by decide) (by decide) (by decide)]
      exact (K.record hz).magic rfl
  · intro j hj
    unfold Layout.release
    split_ifs
    · rfl
    · exact Function.update_of_ne hj ..
  · intro j hj
    by_cases hzero : h.zone (ptr p) .nfree = 0
    · rw [(R.full hzero).1,Function.update_of_ne hj]
    · rw [(R.more hzero).1]
  · exact fun q b y hq hne _ => R.next_other K hz hk hq hne
  · rw [hz]
    simp
  · rw [L.release_self]
    simp
  · rw [← R.rest]
  · rw [← R.rest]

end returning

section freeing

variable {L : Layout c} {h : SlabHeap} {p k fuel : ℕ} {z : Zone c}

/-- The header of a zone does not depend on its chunks. -/
theorem zone_setChunk (hp : p+c.zonePages ≤ 2^20) (hk : k < z.total) (v : Word) (f : ZoneField) :
    (h.set (z.chunk p k) v).zone (ptr p) f = h.zone (ptr p) f :=
  mem_set_of_ne fun heq => z.chunk_ne_field hp hk f heq.symm

/-- The chunk `k` of the zone at `p` is the first one of its free list. -/
structure Stored (p k : ℕ) (z : Zone c) (h h' : SlabHeap) : Prop where
  mem : ∀ x, (∀ f : ZoneField, x ≠ ptr p+f.offset) → x ≠ z.chunk p k → h'.mem x = h.mem x
  chunk : h'.mem (z.chunk p k) = h.zone (ptr p) .freechunk
  freechunk : h'.zone (ptr p) .freechunk = z.chunk p k
  nfree : h'.zone (ptr p) .nfree = h.zone (ptr p) .nfree+1
  others : ∀ f, f ≠ .freechunk → f ≠ .nfree → h'.zone (ptr p) f = h.zone (ptr p) f
  used : account h' = (h.usedMem-h.zone (ptr p) .chunksize,h.maxMem)
  rest : {h' with mem := h.mem, usedMem := h.usedMem} = h

theorem stored (hp : p+c.zonePages ≤ 2^20) (hk : k < z.total) (h : SlabHeap) :
    Stored p k z h (({(h.set (z.chunk p k) (h.zone (ptr p) .freechunk)).setZone (ptr p) .freechunk
      (z.chunk p k) with usedMem := h.usedMem-h.zone (ptr p) .chunksize} : SlabHeap).setZone (ptr p)
      .nfree (h.zone (ptr p) .nfree+1)) := by
  refine ⟨fun x hx hne => ?_,?_,?_,zone_setZone_self,fun f hf hn => ?_,rfl,rfl⟩
  · exact (mem_set_of_ne (hx .nfree)).trans ((mem_set_of_ne (hx .freechunk)).trans (mem_set_of_ne hne))
  · exact (mem_set_of_ne (z.chunk_ne_field hp hk .nfree)).trans
      ((mem_set_of_ne (z.chunk_ne_field hp hk .freechunk)).trans mem_set_self)
  · rw [zone_setZone_of_ne (by decide)]
    exact zone_setZone_self
  · rw [zone_setZone_of_ne hn]
    exact (zone_setZone_of_ne hf).trans (zone_setChunk hp hk _ f)

/-- If the zone was full, it enters its list. -/
theorem Stored.relist {h₁ : SlabHeap} (S : Stored p k z h h₁) (hp : p+c.zonePages ≤ 2^20)
    (hk : k < z.total) (hi : index (h.zone (ptr p) .zoneindex) = some z.index) :
    ∃ h', h₁.relist (ptr p) (h.zone (ptr p) .nfree) = some h' ∧ Returned p k z h h' := by
  have harray : h₁.zoneArray = h.zoneArray := by rw [← S.rest]
  unfold SlabHeap.relist
  by_cases hzero : h.zone (ptr p) .nfree = 0
  · rw [if_pos hzero,S.others .zoneindex (by decide) (by decide),hi]
    refine ⟨_,rfl,fun x hx hne => ?_,?_,?_,?_,fun f hf hn hnext => ?_,fun _ => ?_,
      fun h => (h hzero).elim,S.used,?_⟩
    · exact (mem_set_of_ne (hx .next)).trans (S.mem x hx hne)
    · exact (mem_set_of_ne (z.chunk_ne_field hp hk .next)).trans S.chunk
    · exact (zone_setZone_of_ne (by decide)).trans S.freechunk
    · exact (zone_setZone_of_ne (by decide)).trans S.nfree
    · exact (zone_setZone_of_ne hnext).trans (S.others f hf hn)
    · refine ⟨?_,?_⟩
      · change Function.update h₁.zoneArray z.index (ptr p) = _
        rw [harray]
      · refine zone_setZone_self.trans ?_
        rw [harray]
    · have hrest := S.rest
      calc _ = {({h₁ with mem := h.mem, usedMem := h.usedMem} : SlabHeap) with
            zoneArray := h.zoneArray} := rfl
        _ = h := by rw [hrest]
  · rw [if_neg hzero]
    refine ⟨h₁,rfl,S.mem,S.chunk,S.freechunk,S.nfree,fun f hf hn _ => S.others f hf hn,
      fun h => (hzero h).elim,fun _ => ⟨harray,S.others .next (by decide) (by decide)⟩,S.used,?_⟩
    calc _ = {({h₁ with mem := h.mem, usedMem := h.usedMem} : SlabHeap) with
          zoneArray := h.zoneArray} := rfl
      _ = h := by rw [S.rest]

/-- The chunk `k` of the zone at `p` enters the free list, and the zone its list. -/
theorem freeChunk_returned (fuel : ℕ) (hp : p+c.zonePages ≤ 2^20) (hk : k < z.total)
    (hzone : h.zoneOf (z.chunk p k) = ptr p) (hmagic : h.zone (ptr p) .magic = ZALLOC_SLAB_MAGIC)
    (hindex : (h.zone (ptr p) .zoneindex).toNat = z.index) :
    ∃ h', Returned p k z h h' ∧ freeChunk fuel (z.chunk p k) h =
      if h'.zone (ptr p) .nfree = h'.zone (ptr p) .nmax then
        if h'.zone (ptr p) .next ≠ 0 ∨ h'.zoneArray z.index ≠ ptr p then h'.retire fuel (ptr p) z.index
        else some (none,h')
      else some (none,h') := by
  have hi : index (h.zone (ptr p) .zoneindex) = some z.index := by
    have hlt := z.index.isLt
    rw [← hindex] at hlt
    rw [index_of_lt hlt]
    exact congrArg some (Fin.ext hindex)
  obtain ⟨h',hrelist,R⟩ := (stored hp hk h).relist hp hk hi
  refine ⟨h',R,?_⟩
  -- the code reads the header after the writes to the chunk and to `z_freechunk`
  obtain ⟨g,hg⟩ : ∃ g, (h.set (z.chunk p k) (h.zone (ptr p) .freechunk)).setZone (ptr p) .freechunk
    (z.chunk p k) = g := ⟨_,rfl⟩
  have hread : ∀ f, f ≠ .freechunk → g.zone (ptr p) f = h.zone (ptr p) f := by
    intro f hf
    rw [← hg]
    exact (zone_setZone_of_ne hf).trans (zone_setChunk hp hk _ f)
  have hused : g.usedMem = h.usedMem := by
    rw [← hg]
    rfl
  rw [hg] at hrelist
  have hcode : freeChunk fuel (z.chunk p k) h =
      ((({g with usedMem := g.usedMem-g.zone (ptr p) .chunksize} : SlabHeap).setZone (ptr p) .nfree
        (g.zone (ptr p) .nfree+1)).relist (ptr p) (g.zone (ptr p) .nfree)).bind fun h =>
      if h.zone (ptr p) .nfree = h.zone (ptr p) .nmax then
        (index (h.zone (ptr p) .zoneindex)).bind fun i =>
          if h.zone (ptr p) .next ≠ 0 ∨ h.zoneArray i ≠ ptr p then h.retire fuel (ptr p) i
          else some (none,h)
      else some (none,h) := by
    unfold freeChunk
    rw [hzone,if_neg (not_not.mpr hmagic),← hg]
    rfl
  rw [hcode,hread .chunksize (by decide),hread .nfree (by decide),hused,hrelist,Option.bind_some,
    R.others .zoneindex (by decide) (by decide) (by decide),hi]
  rfl

theorem Spares.trans {h' h'' : SlabHeap} (hs : Spares L h h') (hs' : Spares L h' h'') :
    Spares L h h'' := fun e x he hx => (hs' e x he hx).trans (hs e x he hx)

theorem Spares.mono {L' : Layout c} {h' : SlabHeap} (hs : Spares L h h')
    (hsub : ∀ e, L'.Live e → L.Live e) : Spares L' h h' := fun e x he hx => hs e x (hsub e he) hx

theorem Zone.mem_give (z : Zone c) {l : ℕ} (hk : k ∈ z.live) :
    l ∈ (z.give hk).live ↔ l ∈ z.live ∧ l ≠ k := by
  have hnodup : z.live.Nodup := (List.nodup_append'.mp z.nodup).1
  change l ∈ z.live.erase k ↔ _
  rw [hnodup.mem_erase_iff,and_comm]

/-- The chunk `k` of the zone `z` at page `p` is no longer held; the block is `r` now. -/
structure Freed (L L' : Layout c) (p : ℕ) (z : Zone c) (k : ℕ) (r : Role c) : Prop where
  role : L'.role = Function.update L.role p (some r)
  gives : ∀ a n, r.Gives p (.bytes a n) ↔ ∃ l ∈ z.live, l ≠ k ∧ a = z.chunkAt p l ∧ n = z.size
  tidy : L.Tidy → L'.Tidy

theorem Freed.role_self {L' : Layout c} {r : Role c} (F : Freed L L' p z k r) : L'.role p = some r := by
  rw [F.role,Function.update_self]

theorem Freed.role_other {L' : Layout c} {r : Role c} (F : Freed L L' p z k r) (q : ℕ) (hq : q ≠ p) :
    L'.role q = L.role q := by
  rw [F.role,Function.update_of_ne hq]

/-- A layout in which the zone at `p` is not idle is as tidy as before. -/
theorem Layout.Tidy.change {L' : Layout c} (T : L.Tidy) (hrole : ∀ q, q ≠ p → L'.role q = L.role q)
    (hp : ∀ z, L'.role p = some (.zone true z) → z.live ≠ []) : L'.Tidy := by
  intro q q' y y' hq hq' hy hy' hindex
  have hqp : q ≠ p := by
    rintro rfl
    exact hp y hq hy
  have hqp' : q' ≠ p := by
    rintro rfl
    exact hp y' hq' hy'
  rw [hrole q hqp] at hq
  rw [hrole q' hqp'] at hq'
  exact T q q' y y' hq hq' hy hy' hindex

/-- A zone at the head of its list without a successor is alone in it. -/
theorem Kept.alone {q : ℕ} {i : Fin NZONES} (K : Kept L h) (harray : h.zoneArray i = ptr p)
    (hnext : h.zone (ptr p) .next = 0) (hp : p ∈ L.lists i) (hq : q ∈ L.lists i) : q = p := by
  obtain ⟨z,hz,-⟩ := ((K.lists i).mem p).mp hp
  have hchain := (K.lists i).chain
  rw [harray,pointer_of_ne (ptr_ne_zero (K.shape.bounds hz).1 (K.shape.page_lt hz))] at hchain
  obtain ⟨ys,hlist,hrest⟩ := hchain.eq_some
  rw [nextZone,hnext] at hrest
  rw [hrest.eq_none] at hlist
  obtain ⟨a,ha,-⟩ := List.map_eq_singleton_iff.mp hlist
  rw [ha,List.mem_singleton] at hp hq
  exact hq.trans hp.symm

/-- After the return of a chunk the clients' other blocks are as before. -/
theorem Returned.spares {h₁ : SlabHeap} (R : Returned p k z h h₁) (hk : k ∈ z.live)
    (K₁ : Kept (L.release p z (z.give hk)) h₁) : Spares (L.release p z (z.give hk)) h h₁ := by
  have hself : (L.release p z (z.give hk)).role p = some (.zone true (z.give hk)) := L.release_self
  have hlt := z.lt_total (Or.inl hk)
  have S := K₁.shape
  intro e x he hx
  refine R.mem x (fun f heq => ?_) fun heq => ?_
  · rw [heq] at hx
    exact S.header_private hself he f hx
  · have hsize := z.size_bounds
    refine S.chunk_private hself hlt (k := k) (n := 0) ?_ he (show 0 < z.size by omega) ?_ hx
    · rw [z.mem_give]
      exact fun h => h.2 rfl
    · rw [heq,z.toNat_chunk (S.zone_end hself) hlt]
      exact (Nat.add_zero (z.chunkAt p k)).symm

/-- The chunks that a zone gives out after the return of the chunk `k`. -/
theorem Zone.gives_give (z : Zone c) (hk : k ∈ z.live) (a n : ℕ) :
    (Role.zone true (z.give hk)).Gives p (.bytes a n) ↔
      ∃ l ∈ z.live, l ≠ k ∧ a = z.chunkAt p l ∧ n = z.size := by
  change (∃ l ∈ (z.give hk).live, a = z.chunkAt p l ∧ n = z.size) ↔ _
  simp only [z.mem_give,and_assoc]

/-- An idle zone that is alone in its list is the only idle zone of its index. -/
theorem Kept.tidy_alone {h₁ : SlabHeap} {hk : k ∈ z.live} (K₁ : Kept (L.release p z (z.give hk)) h₁)
    (T : L.Tidy) (hempty : (z.give hk).live = []) (hnext : h₁.zone (ptr p) .next = 0)
    (harray : h₁.zoneArray z.index = ptr p) : (L.release p z (z.give hk)).Tidy := by
  have hlisted : ∀ q y, (L.release p z (z.give hk)).role q = some (.zone true y) → y.live = [] →
      y.index = z.index → q ∈ (L.release p z (z.give hk)).lists z.index := by
    intro q y hq hy hindex
    rw [(K₁.lists z.index).mem,Layout.ready_iff hq,hy]
    have := y.two_le_total
    exact ⟨hindex,by rw [List.length_nil]; omega⟩
  have hp := hlisted p _ L.release_self hempty rfl
  have hne : ∀ q y, (L.release p z (z.give hk)).role q = some (.zone true y) →
      y.index ≠ z.index → q ≠ p := by
    rintro q y hq hy rfl
    rw [L.release_self] at hq
    cases hq
    exact hy rfl
  -- any other idle zone of this index would be in the list, too
  intro q q' y y' hq hq' hy hy' hindex
  by_cases hi : y.index = z.index
  · rw [K₁.alone harray hnext hp (hlisted q y hq hy hi),
      K₁.alone harray hnext hp (hlisted q' y' hq' hy' (hindex.symm.trans hi))]
  · rw [L.release_other q (hne q y hq hi)] at hq
    rw [L.release_other q' (hne q' y' hq' (hindex ▸ hi))] at hq'
    exact T q q' y y' hq hq' hy hy' hindex

/-- The last live chunk was `k`, and the zone is retired as `r`. -/
theorem Freed.leave {hk : k ∈ z.live} {r : Role c} (hempty : (z.give hk).live = [])
    (hgives : ∀ a n, ¬r.Gives p (.bytes a n)) (hr : ∀ z', r ≠ .zone true z') (spare : List ℕ) :
    Freed L ((L.release p z (z.give hk)).leave p z.index r spare) p z k r := by
  have hrole : ((L.release p z (z.give hk)).leave p z.index r spare).role =
      Function.update L.role p (some r) := Function.update_idem ..
  refine ⟨hrole,fun a n => ⟨fun h => (hgives a n h).elim,?_⟩,fun T => ?_⟩
  · rintro ⟨l,hl,hlk,-⟩
    have := (z.mem_give hk).mpr ⟨hl,hlk⟩
    rw [hempty] at this
    cases this
  · refine T.change (p := p) (fun q hq => ?_) fun z' hz' => ?_
    · rw [hrole,Function.update_of_ne hq]
    · rw [hrole,Function.update_self] at hz'
      exact (hr z' (Option.some.inj hz')).elim

/-- The part of `kfree` for a chunk: either its zone stays, or its pages are to be freed. -/
theorem Kept.freeChunk (K : Kept L h) (hfuel : c.count < fuel)
    (hz : L.role p = some (.zone true z)) (hk : k ∈ z.live) :
    ∃ out h' L' r, freeChunk fuel (z.chunk p k) h = some (out,h') ∧ Kept L' h' ∧ Freed L L' p z k r ∧
      (out = none ∧ (∀ q n, ¬r.Gives p (.pages q n)) ∧ Spares L' h h' ∨
        out = some (ptr p) ∧ r = .pages c.zonePages ∧ Spares (L'.put p none) h h') ∧
      ∃ s : Word, s.toNat = z.size ∧ account h' = (h.usedMem-s,h.maxMem) := by
  have hend := K.shape.zone_end hz
  have hlt := z.lt_total (Or.inl hk)
  have H := K.held hz
  obtain ⟨h₁,R,hrun⟩ := freeChunk_returned fuel hend hlt
    (K.zoneOf hz (z.pageNo_chunk hend hlt)) ((K.record hz).magic rfl) H.zoneindex
  have K₁ := K.release hz hk R
  have hspares := R.spares hk K₁
  have hused : ∃ s : Word, s.toNat = z.size ∧ account h₁ = (h.usedMem-s,h.maxMem) :=
    ⟨_,H.chunksize,R.used⟩
  have hself : (L.release p z (z.give hk)).role p = some (.zone true (z.give hk)) := L.release_self
  have htest : h₁.zone (ptr p) .nfree = h₁.zone (ptr p) .nmax ↔ (z.give hk).live = [] := by
    have H₁ := K₁.held hself
    have hnfree := H₁.nfree
    have hnmax := H₁.nmax
    have hlength := (z.give hk).length_le
    have htwo := (z.give hk).two_le_total
    rw [← List.length_eq_zero_iff,← BitVec.toNat_inj]
    omega
  by_cases hempty : (z.give hk).live = []
  · rw [hrun,if_pos (htest.mpr hempty)]
    by_cases halone : h₁.zone (ptr p) .next ≠ 0 ∨ h₁.zoneArray z.index ≠ ptr p
    · rw [if_pos halone]
      obtain ⟨s,hs,hused⟩ := hused
      rcases K₁.retire hfuel hself hempty with ⟨h₂,hretire,K₂,hs₂,haccount⟩ | ⟨h₂,hretire,K₂,hs₂,haccount⟩
      · have F := Freed.leave (L := L) (p := p) (r := .zone false (z.give hk)) hempty (fun _ _ h => h) (by simp)
        refine ⟨none,h₂,_,_,hretire,K₂,F _,Or.inl ⟨rfl,fun _ _ h => h,?_⟩,s,hs,haccount.trans hused⟩
        refine (hspares.trans hs₂).mono fun e => live_of_other (p := p) (fun q hq => ?_) ?_
        · exact Function.update_of_ne hq ..
        · rintro e ⟨r,hr,hg⟩
          change Function.update (L.release p z (z.give hk)).role p _ p = some r at hr
          rw [Function.update_self] at hr
          cases hr
          exact hg
      · have F := Freed.leave (L := L) (p := p) (r := .pages c.zonePages) hempty (fun _ _ h => h) (by simp)
        refine ⟨some (ptr p),h₂,_,_,hretire,K₂,F _,Or.inr ⟨rfl,rfl,?_⟩,s,hs,haccount.trans hused⟩
        refine (hspares.trans hs₂).mono fun e => live_of_other (p := p) (fun q hq => ?_) ?_
        · exact (Layout.put_of_ne hq).trans (Function.update_of_ne hq ..)
        · rintro e ⟨r,hr,hg⟩
          rw [Layout.put_self] at hr
          cases hr
    · rw [if_neg halone]
      refine ⟨none,h₁,_,.zone true (z.give hk),rfl,K₁,⟨rfl,z.gives_give hk,fun T => ?_⟩,
        Or.inl ⟨rfl,fun _ _ h => h,hspares⟩,hused⟩
      have hnext : h₁.zone (ptr p) .next = 0 := not_not.mp fun h => halone (Or.inl h)
      have harray : h₁.zoneArray z.index = ptr p := not_not.mp fun h => halone (Or.inr h)
      exact K₁.tidy_alone T hempty hnext harray
  · rw [hrun,if_neg fun h => hempty (htest.mp h)]
    refine ⟨none,h₁,_,.zone true (z.give hk),rfl,K₁,⟨rfl,z.gives_give hk,fun T => ?_⟩,
      Or.inl ⟨rfl,fun _ _ h => h,hspares⟩,hused⟩
    refine T.change L.release_other fun z' hz' => ?_
    rw [hself] at hz'
    cases hz'
    exact hempty

end freeing

end CosKernel.HeapBlocks
