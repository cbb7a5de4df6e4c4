import CosKernel.HeapInvariant

/-!
# Taking chunks from zones

`kmalloc` takes a chunk of the first zone of a list, or it sets up a zone of pages that it
got from `zone_free` or from `page_alloc`. Either way it writes to the header of that zone
only.
-/
namespace CosKernel.HeapBlocks
open SlabHeap PageAllocator LinkedChain IntervalFreeList BlockMaps

variable {c : Config}

/-- Only the header of the zone at `p` has changed. -/
def HeaderOnly (p : ℕ) (h h' : SlabHeap) : Prop :=
  ∀ x, (∀ f : ZoneField, x ≠ ptr p+f.offset) → h'.mem x = h.mem x

/-- What the clients hold has not changed. -/
def Spares (L : Layout c) (h h' : SlabHeap) : Prop :=
  ∀ e x, L.Live e → e.Covers x → h'.mem x = h.mem x

/-- The memory in use and its maximum so far, as the code counts them. -/
def account (h : SlabHeap) : Word × Word := (h.usedMem,h.maxMem)

section headers

variable {h h' h'' : SlabHeap} {z v : Word} {f g : ZoneField} {p q : ℕ} {L : Layout c}

@[simp] theorem zone_setZone_self : (h.setZone z f v).zone z f = v := by
  simp [SlabHeap.setZone,SlabHeap.zone,SlabHeap.set]

theorem zone_setZone_of_ne (hfg : g ≠ f) : (h.setZone z f v).zone z g = h.zone z g :=
  mem_set_of_ne fun heq => hfg (field_inj.mp heq)

@[simp] theorem zone_setZone : (h.setZone z f v).zone z g = if g = f then v else h.zone z g := by
  split_ifs with hfg
  · rw [hfg,zone_setZone_self]
  · exact zone_setZone_of_ne hfg

@[simp] theorem zoneArray_setZone : (h.setZone z f v).zoneArray = h.zoneArray := rfl

@[simp] theorem zoneSize_setZone : (h.setZone z f v).zoneSize = h.zoneSize := rfl

theorem zone_mk {m : Word → Word} {a : Fin NZONES → Word} {b₁ b₂ b₃ b₄ b₅ b₆ b₇ b₈ b₉ b₁₀ b₁₁ : Word} :
    (⟨m,b₁,a,b₂,b₃,b₄,b₅,b₆,b₇,b₈,b₉,b₁₀,b₁₁⟩ : SlabHeap).zone z f = m (z+f.offset) := rfl

theorem mem_zoneField : h.mem (z+f.offset) = h.zone z f := rfl

@[simp] theorem zone_use : (h.use v).zone z f = h.zone z f := rfl

@[simp] theorem zoneArray_use : (h.use v).zoneArray = h.zoneArray := rfl

theorem HeaderOnly.trans (H : HeaderOnly p h h') (H' : HeaderOnly p h' h'') : HeaderOnly p h h'' :=
  fun x hx => (H' x hx).trans (H x hx)

theorem headerOnly_setZone : HeaderOnly p h (h.setZone (ptr p) f v) :=
  fun _ hx => mem_set_of_ne (hx f)

/-- The headers of other zones are unchanged. -/
theorem HeaderOnly.zone_other (H : HeaderOnly p h h') (hp : p < 2^20) (hq : q < 2^20) (hne : q ≠ p)
    (f : ZoneField) : h'.zone (ptr q) f = h.zone (ptr q) f := by
  refine H _ fun g heq => hne ?_
  rw [← pageNo_headerField hq f,heq,pageNo_headerField hp g]

theorem HeaderOnly.chunk {z : Zone c} {k : ℕ} (H : HeaderOnly p h h') (hp : p+c.zonePages ≤ 2^20)
    (hk : k < z.total) : h'.mem (z.chunk p k) = h.mem (z.chunk p k) :=
  H _ fun f => z.chunk_ne_field hp hk f

theorem HeaderOnly.touched {b : Bool} {z : Zone c} (H : HeaderOnly p h h') (S : Shape L)
    (hz : L.role p = some (.zone b z)) (x : Word) (hx : ¬Touched L p x) : h'.mem x = h.mem x := by
  refine H x fun f heq => hx (Or.inl ?_)
  rw [heq]
  exact S.owns_field hz f

theorem HeaderOnly.entry {b : Bool} {z : Zone c} (H : HeaderOnly p h h') (S : Shape L)
    (hz : L.role p = some (.zone b z)) {i : ℕ} (hi : i < c.base+c.count) :
    h'.mem (c.entry i) = h.mem (c.entry i) := by
  refine H _ fun f heq => S.table_ne_zone hz (S.owns_field hz f) ?_
  rw [← heq]
  exact S.owns_entry hi

theorem HeaderOnly.spares {b : Bool} {z : Zone c} (H : HeaderOnly p h h') (S : Shape L)
    (hz : L.role p = some (.zone b z)) : Spares L h h' := by
  intro e x he hx
  refine H x fun f heq => S.header_private hz he f ?_
  rw [← heq]
  exact hx

end headers

section fromZone

variable {L : Layout c} {h h' : SlabHeap} {p k : ℕ} {z : Zone c} {i : Fin NZONES} {size : Word}

/-- The address of the chunk `k`, as the code computes it. -/
theorem Zone.chunk_eq {n : Word} (z : Zone c) (hn : n.toNat = k) (hsize : size.toNat = z.size) :
    z.chunk p 0+n*size = z.chunk p k := by
  obtain rfl : n = BitVec.ofNat 32 k := by rw [← hn,BitVec.ofNat_toNat,BitVec.setWidth_eq]
  obtain rfl : size = BitVec.ofNat 32 z.size := by rw [← hsize,BitVec.ofNat_toNat,BitVec.setWidth_eq]
  rw [Zone.chunk,← BitVec.ofNat_mul,← BitVec.ofNat_add,Zone.chunk,Zone.chunkAt,Zone.chunkAt,Zone.size]
  exact congrArg (BitVec.ofNat 32) (by omega)

/-- The list of an element of `zone_array` is empty exactly when the element is null. -/
theorem Kept.fromZone_nil (K : Kept L h) (hl : L.lists i = []) :
    fromZone size i h = some (none,h) := by
  have hchain := (K.lists i).chain
  rw [hl] at hchain
  have hzero : h.zoneArray i = 0 := pointer_eq_none.mp hchain
  simp [fromZone,hzero]

/-- A zone in a list has a free chunk. -/
theorem Held.nfree_pos (H : Held h p z) (hlt : z.live.length < z.total) :
    0 < (h.zone (ptr p) .nfree).toNat ∧ (h.zone (ptr p) .nfree).toNat ≤ 16384 := by
  have := H.nfree
  have := z.total_le
  omega

/-- What `takeFree` does to the header and to the list. -/
structure TookFree (p : ℕ) (i : Fin NZONES) (h h' : SlabHeap) : Prop where
  header : HeaderOnly p h h'
  nfree : h'.zone (ptr p) .nfree = h.zone (ptr p) .nfree-1
  others : ∀ f, f ≠ .nfree → f ≠ .next → h'.zone (ptr p) f = h.zone (ptr p) f
  full : h.zone (ptr p) .nfree-1 = 0 →
    h'.zoneArray = Function.update h.zoneArray i (h.zone (ptr p) .next)
  more : h.zone (ptr p) .nfree-1 ≠ 0 → h'.zoneArray = h.zoneArray ∧
    h'.zone (ptr p) .next = h.zone (ptr p) .next
  rest : {h' with mem := h.mem, zoneArray := h.zoneArray} = h

theorem takeFree_took (p : ℕ) (i : Fin NZONES) (h : SlabHeap) :
    TookFree p i h (h.takeFree (ptr p) i) := by
  unfold SlabHeap.takeFree
  by_cases hlast : h.zone (ptr p) .nfree-1 = 0
  · rw [if_pos (by rw [zone_setZone_self]; exact hlast)]
    refine ⟨?_,?_,?_,fun _ => ?_,fun hne => (hne hlast).elim,rfl⟩
    · intro x hx
      exact (headerOnly_setZone x hx).trans (headerOnly_setZone (h := h) x hx)
    · rw [zone_setZone_of_ne (by decide)]
      exact zone_setZone_self
    · intro f hf hnext
      rw [zone_setZone_of_ne hnext]
      exact zone_setZone_of_ne hf
    · rw [zoneArray_setZone,zone_setZone_of_ne (by decide)]
      rfl
  · rw [if_neg (by rw [zone_setZone_self]; exact hlast)]
    refine ⟨headerOnly_setZone,zone_setZone_self,?_,fun h => (hlast h).elim,fun _ => ?_,rfl⟩
    · exact fun f hf _ => zone_setZone_of_ne hf
    · exact ⟨rfl,zone_setZone_of_ne (by decide)⟩

/-- The zone at `p` gives its next unused chunk. -/
theorem Held.takeNew (H : Held h p z) (hp : p+c.zonePages ≤ 2^20)
    (hlt : z.live.length+z.free.length < z.total) (hheader : HeaderOnly p h h')
    (hnfree : h'.zone (ptr p) .nfree = h.zone (ptr p) .nfree-1)
    (huindex : h'.zone (ptr p) .uindex = h.zone (ptr p) .uindex+1)
    (hothers : ∀ f, f ≠ .nfree → f ≠ .next → f ≠ .uindex →
      h'.zone (ptr p) f = h.zone (ptr p) f) : Held h' p (z.takeNew hlt) := by
  have htotal := z.total_le
  have hpos := H.nfree_pos (by omega)
  have huse := H.uindex
  refine H.change rfl (fun f _ hnext hn hu _ => hothers f hn hnext hu) ?_ ?_ ?_
  · have := H.nfree
    rw [hnfree]
    change _ = z.total-(z.live.length+1)
    bv_omega
  · rw [huindex]
    change _ = z.live.length+1+z.free.length
    bv_omega
  · rw [hothers .freechunk (by decide) (by decide) (by decide)]
    refine H.freechunk.congr fun x hx => ?_
    obtain ⟨l,hl,rfl⟩ := List.mem_map.mp hx
    rw [nextChunk,hheader.chunk hp (z.lt_total (Or.inr hl)),nextChunk]

/-- The zone at `p` gives the first chunk of its free list. -/
theorem Held.takeFree {rest : List ℕ} (H : Held h p z) (hp : p+c.zonePages ≤ 2^20)
    (hfree : z.free = k::rest) (hlt : z.live.length < z.total) (hheader : HeaderOnly p h h')
    (hnfree : h'.zone (ptr p) .nfree = h.zone (ptr p) .nfree-1)
    (hfreechunk : h'.zone (ptr p) .freechunk = h.mem (z.chunk p k))
    (hothers : ∀ f, f ≠ .nfree → f ≠ .next → f ≠ .freechunk →
      h'.zone (ptr p) f = h.zone (ptr p) f) : Held h' p (z.takeFree hfree) := by
  have htotal := z.total_le
  have hpos := H.nfree_pos hlt
  have hchain := H.freechunk
  have huse := H.uindex
  rw [hfree] at hchain huse
  refine H.change rfl (fun f _ hnext hn _ hf => hothers f hn hnext hf) ?_ ?_ ?_
  · have := H.nfree
    rw [hnfree]
    change _ = z.total-(z.live.length+1)
    bv_omega
  · rw [hothers .uindex (by decide) (by decide) (by decide)]
    change _ = z.live.length+1+rest.length
    rw [List.length_cons] at huse
    omega
  · rw [hfreechunk]
    refine hchain.2.congr fun x hx => ?_
    obtain ⟨l,hl,rfl⟩ := List.mem_map.mp hx
    have hmem : l ∈ z.free := by
      rw [hfree]
      exact List.mem_cons_of_mem k hl
    rw [nextChunk,nextChunk]
    exact congrArg pointer (hheader.chunk hp (z.lt_total (Or.inr hmem)))

/-- The zone at `p`, the first one of its list, has given a chunk of `s` bytes. -/
structure Gave (p : ℕ) (i : Fin NZONES) (s : Word) (h h' : SlabHeap) : Prop where
  header : HeaderOnly p h h'
  magic : h'.zone (ptr p) .magic = h.zone (ptr p) .magic
  full : h.zone (ptr p) .nfree-1 = 0 →
    h'.zoneArray = Function.update h.zoneArray i (h.zone (ptr p) .next)
  more : h.zone (ptr p) .nfree-1 ≠ 0 → h'.zoneArray = h.zoneArray ∧
    h'.zone (ptr p) .next = h.zone (ptr p) .next
  used : account h' = account (h.use s)
  rest : {h' with
    mem := h.mem
    zoneArray := h.zoneArray
    usedMem := h.usedMem
    maxMem := h.maxMem} = h

/-- After `takeFree` one more field of the header is set. -/
theorem TookFree.gave {h₁ : SlabHeap} (T : TookFree p i h h₁) {f : ZoneField} (hmagic : f ≠ .magic)
    (hnext : f ≠ .next) (v s : Word) : Gave p i s h ((h₁.setZone (ptr p) f v).use s) := by
  refine ⟨?_,?_,?_,fun h => ?_,?_,?_⟩
  · exact T.header.trans headerOnly_setZone
  · rw [zone_use,zone_setZone_of_ne hmagic.symm]
    exact T.others .magic (by decide) (by decide)
  · exact T.full
  · rw [zone_use,zone_setZone_of_ne hnext.symm]
    exact T.more h
  · have hused : h.usedMem = h₁.usedMem := by rw [← T.rest]
    have hmax : h.maxMem = h₁.maxMem := by rw [← T.rest]
    simp only [account,SlabHeap.use,hused,hmax]
    rfl
  · calc _ = {({h₁ with mem := h.mem, zoneArray := h.zoneArray} : SlabHeap) with
          usedMem := h.usedMem
          maxMem := h.maxMem} := rfl
      _ = h := by rw [T.rest]

/-- The zone at `p`, the first one of list `i`, becomes `z`; it leaves the list when it is full. -/
def Layout.take (L : Layout c) (i : Fin NZONES) (p : ℕ) (z : Zone c) : Layout c where
  role := Function.update L.role p (some (.zone true z))
  lists := if z.live.length < z.total then L.lists else Function.update L.lists i (L.lists i).tail
  spare := L.spare

/-- The list of the zone that has given a chunk. -/
theorem ListKept.take {z' : Zone c} {ps : List ℕ} (T : ListKept L h i) (hl : L.lists i = p::ps)
    (hself : z'.index = i) (hfull : h.zone (ptr p) .nfree-1 = 0 ↔ ¬z'.live.length < z'.total)
    (G : Gave p i size h h')
    (hnext : ∀ q, q ∈ L.lists i → q ≠ p → h'.zone (ptr q) .next = h.zone (ptr q) .next) :
    ListKept (L.take i p z') h' i := by
  have hrole : (L.take i p z').role p = some (.zone true z') := Function.update_self ..
  have hother : ∀ q, q ≠ p → (L.take i p z').role q = L.role q :=
    fun q hq => Function.update_of_ne hq ..
  have hnodup := T.nodup
  have hchain := T.chain
  rw [hl] at hnodup hchain hnext
  obtain ⟨hp,hps⟩ := List.nodup_cons.mp hnodup
  by_cases hmore : z'.live.length < z'.total
  · have hlist : (L.take i p z').lists i = p::ps := by
      rw [Layout.take,if_pos hmore,hl]
    obtain ⟨harray,hlink⟩ := G.more fun h => hfull.mp h hmore
    refine T.change hother ?_ ?_ ?_ ?_
    · rw [hlist,harray]
      refine hchain.congr fun x hx => ?_
      obtain ⟨q,hq,rfl⟩ := List.mem_map.mp hx
      by_cases hqp : q = p
      · rw [nextZone,hqp,hlink,nextZone]
      · rw [nextZone,hnext q hq hqp,nextZone]
    · rw [hlist]
      exact hnodup
    · intro q _
      rw [hlist,hl]
    · rw [hlist,Layout.ready_iff hrole]
      simp only [List.mem_cons_self,true_iff]
      exact ⟨hself,hmore⟩
  · -- the zone leaves the list
    have hlist : (L.take i p z').lists i = ps := by
      rw [Layout.take,if_neg hmore]
      simp only [Function.update_self,hl,List.tail_cons]
    refine T.change hother ?_ ?_ ?_ ?_
    · rw [hlist,G.full (hfull.mpr hmore),Function.update_self]
      refine hchain.2.congr fun x hx => ?_
      obtain ⟨q,hq,rfl⟩ := List.mem_map.mp hx
      have hqp : q ≠ p := by
        rintro rfl
        exact hp hq
      rw [nextZone,hnext q (List.mem_cons_of_mem p hq) hqp,nextZone]
    · rw [hlist]
      exact hps
    · intro q hq
      rw [hlist,hl,List.mem_cons]
      simp only [hq,false_or]
    · rw [hlist,Layout.ready_iff hrole]
      simp only [hp,hmore,and_false]

theorem Kept.take {z' : Zone c} {ps : List ℕ} (K : Kept L h) (hl : L.lists i = p::ps)
    (hz : L.role p = some (.zone true z)) (hindex : z'.index = z.index)
    (hlive : z'.live.length = z.live.length+1) (hheld : Held h' p z') (G : Gave p i size h h') :
    Kept (L.take i p z') h' := by
  have S := K.shape
  have hself : (L.take i p z').role p = some (.zone true z') := Function.update_self ..
  have hother : ∀ q, q ≠ p → (L.take i p z').role q = L.role q :=
    fun q hq => Function.update_of_ne hq ..
  have hready : z.index = i ∧ z.live.length < z.total :=
    (Layout.ready_iff hz).mp (((K.lists i).mem p).mp (by rw [hl]; exact List.mem_cons_self))
  have hi : z'.index = i := hindex.trans hready.1
  have hnext : ∀ q b y, L.role q = some (.zone b y) → q ≠ p →
      h'.zone (ptr q) .next = h.zone (ptr q) .next :=
    fun q b y hq hne => G.header.zone_other (S.page_lt hz) (S.page_lt hq) hne .next
  -- the code tests the field `z_nfree`
  have hfull : h.zone (ptr p) .nfree-1 = 0 ↔ ¬z'.live.length < z'.total := by
    have htotal : z'.total = z.total := by rw [Zone.total,hindex,Zone.total]
    have := (K.held hz).nfree
    have := z.total_le
    rw [htotal,hlive]
    constructor <;> intro h <;> bv_omega
  refine K.replace hz (by simp) (.zone true z') (by simp) rfl rfl (G.header.touched S hz)
    (by rw [← G.rest]; rfl) (by rw [← G.rest]) ?_ (K.lists_of (i := i) ?_ hother ?_ ?_ ?_ ?_ ?_)
    (K.spare_of (i := i) hother rfl ?_ ?_ ?_ ?_ fun q b y hq hne _ => hnext q b y hq hne)
  · refine ⟨hheld,fun j hj => ((K.record hz).usage j hj).frame ?_,fun _ => ?_,fun hb => Bool.noConfusion hb⟩
    · have := S.inside p _ hz
      rw [Role.span] at this
      exact G.header.entry S hz (by omega)
    · rw [G.magic]
      exact (K.record hz).magic rfl
  · refine (K.lists i).take hl hi hfull G fun q hq hne => ?_
    obtain ⟨y,hy,-⟩ := ((K.lists i).mem q).mp hq
    exact hnext q true y hy hne
  · intro j hj
    unfold Layout.take
    split_ifs
    · rfl
    · exact Function.update_of_ne hj ..
  · intro j hj
    rw [Layout.ready_iff hz]
    exact fun h => hj (h.1.symm.trans hready.1)
  · intro j hj
    rw [Layout.ready_iff hself]
    exact fun h => hj (h.1.symm.trans hi)
  · intro j hj
    by_cases hlast : h.zone (ptr p) .nfree-1 = 0
    · rw [G.full hlast,Function.update_of_ne hj]
    · rw [(G.more hlast).1]
  · exact fun q b y hq hne _ => hnext q b y hq hne
  · rw [hz]
    simp
  · rw [hself]
    simp
  · rw [← G.rest]
  · rw [← G.rest]

/-- The first zone of a list gives a chunk that is not live. -/
theorem Kept.fromZone_cons {ps : List ℕ} (K : Kept L h) (hl : L.lists i = p::ps)
    (hsize : size.toNat = classSize i) : ∃ z z' k h', L.role p = some (.zone true z) ∧
      z.index = i ∧ fromZone size i h = some (some (z.chunk p k),h') ∧ HeaderOnly p h h' ∧
      z'.index = z.index ∧ z'.live = k::z.live ∧ k ∉ z.live ∧ Kept (L.take i p z') h' ∧
      ∃ s : Word, s.toNat = classSize i ∧ account h' = account (h.use s) := by
  have hmem : p ∈ L.lists i := by
    rw [hl]
    exact List.mem_cons_self
  obtain ⟨z,hz,hindex,hlt⟩ := ((K.lists i).mem p).mp hmem
  have hchain := (K.lists i).chain
  rw [hl] at hchain
  obtain ⟨harray,hne⟩ := pointer_eq_some.mp hchain.1
  have H := K.held hz
  have hend := K.shape.zone_end hz
  have T := takeFree_took p i h
  have hnfree : ¬(h.zone (ptr p) .nfree).toInt ≤ 0 := by
    have := H.nfree_pos hlt
    rw [BitVec.toInt_eq_toNat_of_lt (by omega)]
    omega
  have huindex := H.uindex
  have hnmax := H.nmax
  have hbound := z.total_le
  have hlength := z.length_le
  have hchunksize : (h.zone (ptr p) .chunksize).toNat = classSize i := by
    rw [H.chunksize,Zone.size,hindex]
  have htest : (h.takeFree (ptr p) i).zone (ptr p) .uindex+1 ≠ (h.takeFree (ptr p) i).zone (ptr p) .nmax ↔
      z.live.length+z.free.length ≠ z.total := by
    rw [T.others .uindex (by decide) (by decide),T.others .nmax (by decide) (by decide)]
    constructor <;> intro h heq <;> apply h <;> bv_omega
  unfold fromZone
  simp only [harray,hne,if_false,hnfree]
  by_cases hnew : z.live.length+z.free.length = z.total
  · -- all chunks have been used before
    rw [if_neg fun h => htest.mp h hnew]
    obtain ⟨k,rest,hfree⟩ : ∃ k rest, z.free = k::rest := by
      apply List.exists_cons_of_length_pos
      omega
    have hk : k ∈ z.free := by
      rw [hfree]
      exact List.mem_cons_self
    have hfirst := H.freechunk
    rw [hfree] at hfirst
    obtain ⟨hfreechunk,hnonzero⟩ := pointer_eq_some.mp hfirst.1
    rw [T.others .freechunk (by decide) (by decide),hfreechunk,if_neg hnonzero,
      T.header.chunk hend (z.lt_total (Or.inr hk))]
    generalize h.takeFree (ptr p) i = h₁ at T
    have G := T.gave (f := .freechunk) (by decide) (by decide) (h.mem (z.chunk p k))
      ((h₁.setZone (ptr p) .freechunk (h.mem (z.chunk p k))).zone (ptr p) .chunksize)
    refine ⟨z,z.takeFree hfree,k,_,hz,hindex,rfl,G.header,rfl,rfl,
      fun h => z.not_free_of_live h hk,K.take hl hz rfl rfl ?_ G,_,?_,G.used⟩
    on_goal 2 => rw [zone_setZone_of_ne (by decide),T.others .chunksize (by decide) (by decide),hchunksize]
    refine H.takeFree hend hfree hlt G.header ?_ ?_ ?_
    · exact (zone_setZone_of_ne (by decide)).trans T.nfree
    · exact zone_setZone_self
    · exact fun f h₁ h₂ h₃ => (zone_setZone_of_ne h₃).trans (T.others f h₁ h₂)
  · rw [if_pos (htest.mpr hnew)]
    have hless : z.live.length+z.free.length < z.total := by omega
    have hnext : (h.zone (ptr p) .uindex+1).toNat = z.live.length+z.free.length := by bv_omega
    generalize h.takeFree (ptr p) i = h₁ at T
    have G := T.gave (f := .uindex) (by decide) (by decide) (h₁.zone (ptr p) .uindex+1)
      ((h₁.setZone (ptr p) .uindex (h₁.zone (ptr p) .uindex+1)).zone (ptr p) .chunksize)
    refine ⟨z,z.takeNew hless,z.live.length+z.free.length,_,hz,hindex,?_,G.header,rfl,rfl,?_,
      K.take hl hz rfl rfl ?_ G,_,?_,G.used⟩
    · rw [zone_setZone_self,zone_setZone_of_ne (by decide),T.others .baseptr (by decide) (by decide),
        T.others .uindex (by decide) (by decide),H.baseptr,
        z.chunk_eq hnext (by rw [hsize,Zone.size,hindex])]
    · intro hk
      have := z.mem_iff.mp (Or.inl hk)
      omega
    · refine H.takeNew hend hless G.header ?_ ?_ ?_
      · exact (zone_setZone_of_ne (by decide)).trans T.nfree
      · rw [zone_use,zone_setZone_self,T.others .uindex (by decide) (by decide)]
      · exact fun f h₁ h₂ h₃ => (zone_setZone_of_ne h₃).trans (T.others f h₁ h₂)
    · rw [zone_setZone_of_ne (by decide),T.others .chunksize (by decide) (by decide),hchunksize]

end fromZone

section newZone

variable {L : Layout c} {h h' : SlabHeap} {p : ℕ} {i : Fin NZONES} {size zi : Word}

theorem overwrite_outside {start len a : Word} {w mem : Word → Word}
    (h : ¬((a-start).toNat%4 = 0 ∧ a-start < len)) : overwrite start len w mem a = mem a := if_neg h

theorem overwrite_word {start len a : Word} {w mem : Word → Word} (hword : (a-start).toNat%4 = 0)
    (hlt : (a-start).toNat+4 ≤ len.toNat) : overwrite start len w mem a = w (a-start) := by
  have hless : a-start < len := by
    rw [BitVec.lt_def]
    omega
  exact (if_pos ⟨hword,hless⟩).trans (if_pos hlt)

/-- `memset` clears the header. -/
theorem headerOnly_memset : HeaderOnly p h (h.memset (ptr p) SIZEOF_SLAB_ZONE) := by
  intro x hx
  change overwrite (ptr p) SIZEOF_SLAB_ZONE (fun _ => 0) h.mem x = h.mem x
  refine overwrite_outside fun ⟨hword,hlt⟩ => ?_
  have hoff : ∃ f : ZoneField, x-ptr p = f.offset := by
    have hcases : x-ptr p = 0 ∨ x-ptr p = 4 ∨ x-ptr p = 8 ∨ x-ptr p = 12 ∨ x-ptr p = 16 ∨
        x-ptr p = 20 ∨ x-ptr p = 24 ∨ x-ptr p = 28 ∨ x-ptr p = 32 := by
      generalize x-ptr p = d at hword hlt
      unfold SIZEOF_SLAB_ZONE at hlt
      bv_omega
    rcases hcases with h | h | h | h | h | h | h | h | h
    · exact ⟨.magic,h⟩
    · exact ⟨.nfree,h⟩
    · exact ⟨.nmax,h⟩
    · exact ⟨.next,h⟩
    · exact ⟨.baseptr,h⟩
    · exact ⟨.uindex,h⟩
    · exact ⟨.chunksize,h⟩
    · exact ⟨.zoneindex,h⟩
    · exact ⟨.freechunk,h⟩
  obtain ⟨f,hf⟩ := hoff
  refine hx f ?_
  rw [← hf]
  bv_omega

theorem zone_memset (f : ZoneField) : (h.memset (ptr p) SIZEOF_SLAB_ZONE).zone (ptr p) f = 0 := by
  have hoff : ptr p+f.offset-ptr p = f.offset := by bv_omega
  refine overwrite_word (a := ptr p+f.offset) (w := fun _ => 0) ?_ ?_
  · rw [hoff]
    cases f <;> decide
  · rw [hoff]
    cases f <;> decide

/-- A zone that `newZone` has set up at page `p`. -/
structure Made (p : ℕ) (size zi : Word) (i : Fin NZONES) (h h' : SlabHeap) : Prop where
  header : HeaderOnly p h h'
  magic : h'.zone (ptr p) .magic = ZALLOC_SLAB_MAGIC
  nfree : h'.zone (ptr p) .nfree = (h.zoneSize-chunkOffset size)/size-1
  nmax : h'.zone (ptr p) .nmax = (h.zoneSize-chunkOffset size)/size
  next : h'.zone (ptr p) .next = h.zoneArray i
  baseptr : h'.zone (ptr p) .baseptr = ptr p+chunkOffset size
  uindex : h'.zone (ptr p) .uindex = 0
  chunksize : h'.zone (ptr p) .chunksize = size
  zoneindex : h'.zone (ptr p) .zoneindex = zi
  freechunk : h'.zone (ptr p) .freechunk = 0
  array : h'.zoneArray = Function.update h.zoneArray i (ptr p)
  used : account h' = account (h.use size)
  rest : {h' with
    mem := h.mem
    zoneArray := h.zoneArray
    usedMem := h.usedMem
    maxMem := h.maxMem} = h

theorem newZone_made (p : ℕ) (size zi : Word) (i : Fin NZONES) (h : SlabHeap) :
    ∃ h', newZone (ptr p) size zi i h = (ptr p+chunkOffset size,h') ∧ Made p size zi i h h' := by
  refine ⟨(newZone (ptr p) size zi i h).2,Prod.ext ?_ rfl,?_⟩
  · simp [newZone]
  · have hfield : ∀ f, (newZone (ptr p) size zi i h).2.zone (ptr p) f =
        if f = .next then h.zoneArray i else if f = .chunksize then size else
        if f = .uindex then 0 else if f = .baseptr then ptr p+chunkOffset size else
        if f = .nfree then (h.zoneSize-chunkOffset size)/size-1 else
        if f = .nmax then (h.zoneSize-chunkOffset size)/size else
        if f = .zoneindex then zi else if f = .magic then ZALLOC_SLAB_MAGIC else 0 := by
      intro f
      simp only [newZone,zone_use,zone_mk,mem_zoneField,zone_setZone,zone_memset,zoneArray_setZone,
        zoneSize_setZone,if_true]
      rfl
    constructor
    · intro x hx
      have hset : ∀ h f v, (SlabHeap.setZone h (ptr p) f v).mem x = h.mem x :=
        fun h f v => headerOnly_setZone x hx
      simp only [newZone,SlabHeap.use,hset]
      exact headerOnly_memset x hx
    · rw [hfield]; rfl
    · rw [hfield]; rfl
    · rw [hfield]; rfl
    · rw [hfield]; rfl
    · rw [hfield]; rfl
    · rw [hfield]; rfl
    · rw [hfield]; rfl
    · rw [hfield]; rfl
    · rw [hfield]; rfl
    · rfl
    · simp only [newZone,zone_mk,mem_zoneField,zone_setZone,if_true]
      rfl
    · rfl

/-- The values that the code computes for a zone with index `i`. -/
theorem Config.total_eq {zoneSize : Word} (hzone : zoneSize.toNat = c.zonePages*4096)
    (hsize : size.toNat = classSize i) : (chunkOffset size).toNat = classOffset i ∧
    ((zoneSize-chunkOffset size)/size).toNat = c.total i := by
  have hoff : (chunkOffset size).toNat = classOffset i := by
    rw [classOffset,← hsize,BitVec.ofNat_toNat,BitVec.setWidth_eq]
  have hroom := c.total_room i
  refine ⟨hoff,?_⟩
  rw [BitVec.toNat_udiv,hsize,Config.total,← hoff,← hzone]
  rw [BitVec.toNat_sub_of_le (by rw [BitVec.le_def]; omega)]

/-- The new zone with its first chunk live. -/
theorem Made.held (M : Made p size zi i h h') (hzone : h.zoneSize.toNat = c.zonePages*4096)
    (hsize : size.toNat = classSize i) (hzi : zi.toNat = i)
    (hsmall : 4*classSize i ≤ c.zonePages*4096) : Held h' p (Zone.first (c := c) i hsmall) := by
  obtain ⟨hoff,hmax⟩ := c.total_eq hzone hsize
  have htwo := c.two_le_total i hsmall
  constructor
  · rw [M.nfree]
    generalize (h.zoneSize-chunkOffset size)/size = m at hmax
    change _ = c.total i-1
    bv_omega
  · rw [M.nmax]
    exact hmax
  · rw [M.baseptr,Zone.chunk,Zone.chunkAt,ptr]
    change _ = BitVec.ofNat 32 (p*4096+classOffset i+0*classSize i)
    rw [← hoff,Nat.zero_mul,Nat.add_zero,BitVec.ofNat_add,BitVec.ofNat_toNat,BitVec.setWidth_eq]
  · rw [M.uindex]
    rfl
  · rw [M.chunksize]
    exact hsize
  · rw [M.zoneindex]
    exact hzi
  · rw [M.freechunk]
    rfl

/-- The pages at `p` become a zone with index `i`, the first one of its list. -/
def Layout.make (L : Layout c) (i : Fin NZONES) (p : ℕ) (z : Zone c) : Layout c where
  role := Function.update L.role p (some (.zone true z))
  lists := Function.update L.lists i (p::L.lists i)
  spare := L.spare

/-- A zone is set up in pages whose entries of `memusage` are those of a zone. -/
theorem Kept.newZone (K : Kept L h) (hr : L.role p = some (.pages c.zonePages))
    (husage : ∀ j, j < c.zonePages → Usage h (c.entry (p+j)) PAGE_TYPE_SMALL j)
    (hsize : size.toNat = classSize i) (hzi : zi.toNat = i)
    (hsmall : 4*classSize i ≤ c.zonePages*4096) :
    ∃ h', newZone (ptr p) size zi i h = ((Zone.first (c := c) i hsmall).chunk p 0,h') ∧
      HeaderOnly p h h' ∧ Kept (L.make i p (Zone.first i hsmall)) h' ∧
      account h' = account (h.use size) := by
  obtain ⟨h',hnew,M⟩ := newZone_made p size zi i h
  have S := K.shape
  have hheld := M.held K.setup.zoneSize hsize hzi hsmall
  have hself : (L.make i p (Zone.first i hsmall)).role p = some (.zone true (Zone.first i hsmall)) :=
    Function.update_self ..
  have hother : ∀ q, q ≠ p → (L.make i p (Zone.first i hsmall)).role q = L.role q :=
    fun q hq => Function.update_of_ne hq ..
  have hready : ∀ j, (L.make i p (Zone.first i hsmall)).Ready j p ↔ j = i := by
    intro j
    rw [Layout.ready_iff hself,eq_comm (a := j)]
    exact ⟨And.left,fun h => ⟨h,Zone.two_le_total _⟩⟩
  have hzone : ∀ j, ¬L.Ready j p := by
    intro j
    apply Layout.not_ready
    rw [hr]
    simp
  have hpages := c.zonePages_bounds
  have howns : ∀ f : ZoneField, L.Owns p (pageNo (ptr p+f.offset)) := by
    intro f
    rw [pageNo_headerField (S.page_lt hr)]
    exact ⟨_,hr,le_refl p,by rw [Role.span]; omega⟩
  have hnext : ∀ q b y, L.role q = some (.zone b y) → q ≠ p →
      h'.zone (ptr q) .next = h.zone (ptr q) .next :=
    fun q b y hq hne => M.header.zone_other (S.page_lt hr) (S.page_lt hq) hne .next
  refine ⟨h',?_,M.header,?_,M.used⟩
  · rw [hnew,← hheld.baseptr,M.baseptr]
  · refine K.replace hr (by simp) (.zone true (Zone.first i hsmall)) (by simp) rfl rfl ?_
      (by rw [← M.rest]; rfl) (by rw [← M.rest]) ?_ (K.lists_of (i := i) ?_ hother ?_ ?_ ?_ ?_ ?_)
      (K.spare_of (i := i) hother rfl ?_ ?_ ?_ ?_ fun q b y hq hne _ => hnext q b y hq hne)
    · intro x hx
      refine M.header x fun f heq => hx (Or.inl ?_)
      rw [heq]
      exact howns f
    · refine ⟨hheld,fun j hj => (husage j hj).frame (M.header _ fun f heq => ?_),fun _ => M.magic,
        fun hb => Bool.noConfusion hb⟩
      have hin := S.inside p _ hr
      rw [Role.span] at hin
      have hentry := S.owns_entry (i := p+j) (by omega)
      rw [heq] at hentry
      have htable := S.unique (howns f) hentry
      rw [htable,(S.table c.table).mpr rfl] at hr
      cases hr
    · refine (K.lists i).push hother (Function.update_self ..) ?_ ((hready i).mpr rfl) ?_ ?_ M.next ?_
      · exact fun h => hzone i (((K.lists i).mem p).mp h)
      · exact ptr_ne_zero (S.bounds hr).1 (S.page_lt hr)
      · rw [M.array,Function.update_self]
      · intro q hq
        obtain ⟨y,hy,-⟩ := ((K.lists i).mem q).mp hq
        refine hnext q true y hy ?_
        rintro rfl
        exact hzone i (((K.lists i).mem q).mp hq)
    · exact fun j hj => Function.update_of_ne hj ..
    · exact fun j _ => hzone j
    · exact fun j hj h => hj ((hready j).mp h)
    · intro j hj
      rw [M.array,Function.update_of_ne hj]
    · exact fun q b y hq hne _ => hnext q b y hq hne
    · rw [hr]
      simp
    · rw [hself]
      simp
    · rw [← M.rest]
    · rw [← M.rest]

end newZone

section fromFreeZones

variable {L : Layout c} {h : SlabHeap} {p : ℕ} {ps : List ℕ}

theorem Kept.fromFreeZones_nil (K : Kept L h) (hl : L.spare = []) :
    h.fromFreeZones = some (none,h) := by
  have hchain := K.spare.chain
  rw [hl] at hchain
  have hzero : h.zoneFree = 0 := pointer_eq_none.mp hchain
  simp [fromFreeZones,hzero]

/-- The first zone of `zone_free` is taken; its pages still have the entries of a zone. -/
theorem Kept.fromFreeZones_cons (K : Kept L h) (hl : L.spare = p::ps) :
    ∃ h', h.fromFreeZones = some (some (ptr p),h') ∧ h'.mem = h.mem ∧ account h' = account h ∧
      (∀ j, j < c.zonePages → Usage h' (c.entry (p+j)) PAGE_TYPE_SMALL j) ∧
      Kept {L with role := Function.update L.role p (some (.pages c.zonePages)), spare := ps} h' := by
  have hchain := K.spare.chain
  have hnodup := K.spare.nodup
  have hcount := K.spare.count
  have hbound := K.spare.bound
  have hmem := K.spare.mem
  rw [hl] at hchain hnodup hcount hbound hmem
  obtain ⟨hp,hps⟩ := List.nodup_cons.mp hnodup
  obtain ⟨hfree,hne⟩ := pointer_eq_some.mp hchain.1
  obtain ⟨z,hz⟩ := (hmem p).mp List.mem_cons_self
  have hother : ∀ q, q ≠ p → Function.update L.role p (some (.pages c.zonePages)) q = L.role q :=
    fun q hq => Function.update_of_ne hq ..
  refine ⟨{h with zoneFree := h.zone (ptr p) .next, zoneFreeCnt := h.zoneFreeCnt-1},?_,rfl,rfl,
    fun j hj => ((K.record hz).usage j hj).frame rfl,?_⟩
  · unfold fromFreeZones
    rw [hfree]
    exact if_neg hne
  · refine K.replace hz (by simp) (.pages c.zonePages) (by simp) rfl rfl (fun _ _ => rfl) rfl rfl
      trivial (fun i => (K.lists i).keep hother rfl ?_ ?_ rfl fun _ _ => rfl) ⟨?_,hps,?_,?_,?_⟩
    · rw [(K.lists i).mem]
      apply Layout.not_ready
      rw [hz]
      simp
    · apply Layout.not_ready
      simp
    · exact hchain.2
    · intro q
      by_cases hq : q = p
      · simp [hq,hp]
      · simp only [hother q hq]
        rw [← hmem q,List.mem_cons]
        simp only [hq,false_or]
    · rw [List.length_cons] at hcount
      simp only
      bv_omega
    · rw [List.length_cons] at hbound
      simp only
      omega

end fromFreeZones

end CosKernel.HeapBlocks
