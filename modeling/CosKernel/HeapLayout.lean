import CosKernel.BlockMaps
import CosKernel.ZoneChunks

/-!
# The layout of the heap

Every page in use belongs to a block of pages: the array `memusage`, a zone, a large block of
`kmalloc`, or a block of `page_alloc`. A layout says which block begins at which page, which
zones are in the lists of `zone_array` and which are in `zone_free`. It determines what the
clients hold and which words the allocator reads.
-/
namespace CosKernel.HeapBlocks
open SlabHeap PageAllocator LinkedChain IntervalFreeList BlockMaps

variable {c : Config}

/-- The use of a block of pages. A zone that is not in use is in the list `zone_free`. -/
inductive Role (c : Config) where
  | table
  | zone (inUse : Bool) (z : Zone c)
  | large (n : ℕ)
  | pages (n : ℕ)

def Role.span : Role c → ℕ
  | table => c.tablePages
  | zone _ _ => c.zonePages
  | large n => n
  | pages n => n

/-- Blocks that consist of pages only. -/
def Role.Whole : Role c → Prop
  | large _ => True
  | pages _ => True
  | _ => False

/-- What a client holds: bytes from an address on, or pages. -/
inductive Holding where
  | bytes (start length : ℕ)
  | pages (page count : ℕ)
  deriving DecidableEq

def Holding.start : Holding → ℕ
  | bytes a _ => a
  | pages p _ => p*4096

def Holding.length : Holding → ℕ
  | bytes _ n => n
  | pages _ n => n*4096

/-- The word at `x` begins in the block. -/
def Holding.Covers (e : Holding) (x : Word) : Prop :=
  e.start ≤ x.toNat ∧ x.toNat < e.start+e.length

/-- What is held of a block that begins at page `p`. -/
def Role.Gives (p : ℕ) : Role c → Holding → Prop
  | zone true z,.bytes a n => ∃ k ∈ z.live, a = z.chunkAt p k ∧ n = z.size
  | large m,.bytes a n => a = p*4096 ∧ n = m*4096
  | pages m,.pages q n => q = p ∧ n = m
  | _,_ => False

/-- The blocks by their first pages, the zones in the lists of `zone_array`, and those in
`zone_free`. -/
structure Layout (c : Config) where
  role : ℕ → Option (Role c)
  lists : Fin NZONES → List ℕ
  spare : List ℕ

namespace Layout

variable (L : Layout c)

/-- The page `i` belongs to the block that begins at page `p`. -/
def Owns (p i : ℕ) : Prop := BlockMaps.Owns Role.span L.role p i

def At (p : ℕ) (e : Holding) : Prop := ∃ r, L.role p = some r ∧ r.Gives p e

def Live (e : Holding) : Prop := ∃ p, L.At p e

/-- The zone at page `p` belongs into the list with index `i`. -/
def Ready (i : Fin NZONES) (p : ℕ) : Prop :=
  ∃ z, L.role p = some (.zone true z) ∧ z.index = i ∧ z.live.length < z.total

/-- At most one zone of each index is in use without a live chunk. -/
def Tidy : Prop :=
  ∀ p q z z', L.role p = some (.zone true z) → L.role q = some (.zone true z') →
    z.live = [] → z'.live = [] → z.index = z'.index → p = q

/-- The block at `p` becomes `r`. -/
def put (p : ℕ) (r : Option (Role c)) : Layout c := {L with role := Function.update L.role p r}

variable {L}

@[simp] theorem put_self {p : ℕ} {r : Option (Role c)} : (L.put p r).role p = r :=
  Function.update_self ..

theorem put_of_ne {p q : ℕ} {r : Option (Role c)} (hq : q ≠ p) : (L.put p r).role q = L.role q :=
  Function.update_of_ne hq ..

theorem put_same {p : ℕ} {r : Option (Role c)} (hr : L.role p = r) : L.put p r = L := by
  rw [put,← hr,Function.update_eq_self]

theorem ready_iff {i : Fin NZONES} {p : ℕ} {z : Zone c} (hz : L.role p = some (.zone true z)) :
    L.Ready i p ↔ z.index = i ∧ z.live.length < z.total := by
  constructor
  · rintro ⟨z',hz',h⟩
    rw [hz] at hz'
    cases hz'
    exact h
  · exact fun h => ⟨z,hz,h⟩

theorem not_ready {i : Fin NZONES} {p : ℕ} (hz : ∀ z, L.role p ≠ some (.zone true z)) :
    ¬L.Ready i p := fun ⟨z,h,_⟩ => hz z h

end Layout

/-- `L'` has one more thing held by clients than `L`, and the other ones are where they were. -/
structure Adds (L L' : Layout c) (e : Holding) : Prop where
  live : ∀ e', L'.Live e' ↔ L.Live e' ∨ e' = e
  fresh : ¬L.Live e
  place : ∀ p e', L.At p e' → L'.At p e'

section adding

variable {L L' : Layout c} {p : ℕ} {e : Holding}

theorem Adds.sub (A : Adds L L' e) {e' : Holding} (he : L.Live e') : L'.Live e' :=
  (A.live e').mpr (Or.inl he)

theorem Adds.self (A : Adds L L' e) : L'.Live e := (A.live e).mpr (Or.inr rfl)

/-- Only the block at `p` gives something new. -/
theorem adds_of_at (hrole : ∀ q, q ≠ p → L'.role q = L.role q)
    (hat : ∀ e', L'.At p e' ↔ L.At p e' ∨ e' = e) (hfresh : ¬L.Live e) : Adds L L' e := by
  have hplace : ∀ q e', L.At q e' → L'.At q e' := by
    intro q e' hq
    by_cases hqp : q = p
    · rw [hqp] at hq ⊢
      exact (hat e').mpr (Or.inl hq)
    · unfold Layout.At
      rw [hrole q hqp]
      exact hq
  refine ⟨fun e' => ⟨fun ⟨q,hq⟩ => ?_,fun h => ?_⟩,hfresh,hplace⟩
  · by_cases hqp : q = p
    · rw [hqp,hat] at hq
      exact hq.imp_left fun h => ⟨p,h⟩
    · unfold Layout.At at hq
      rw [hrole q hqp] at hq
      exact Or.inl ⟨q,hq⟩
  · rcases h with ⟨q,hq⟩ | h
    · exact ⟨q,hplace q e' hq⟩
    · exact ⟨p,(hat e').mpr (Or.inr h)⟩

/-- What is held does not come from the block at `p`. -/
theorem live_of_other (hrole : ∀ q, q ≠ p → L'.role q = L.role q) (hp : ∀ e, ¬L'.At p e)
    (he : L'.Live e) : L.Live e := by
  obtain ⟨q,hq⟩ := he
  have hqp : q ≠ p := by
    rintro rfl
    exact hp e hq
  refine ⟨q,?_⟩
  unfold Layout.At at hq ⊢
  rw [← hrole q hqp]
  exact hq

end adding

/-- The blocks are disjoint and lie in the heap, and one of them is `memusage`. -/
structure Shape (L : Layout c) : Prop where
  tiles : ∃ blocks, Tiles Role.span L.role blocks
  inside : ∀ p r, L.role p = some r → c.base ≤ p ∧ p+r.span ≤ c.base+c.count
  table : ∀ p, L.role p = some .table ↔ p = c.table

/-- The address of the entry of `memusage` for page `i`. -/
def Config.entry (c : Config) (i : ℕ) : Word := BitVec.ofNat 32 (c.table*4096+(i-c.base)*4)

namespace Shape

variable {L : Layout c} (S : Shape L) {p q i k : ℕ} {r : Role c} {b : Bool} {z : Zone c}
variable {e e' : Holding} {x : Word}

include S

theorem unique (hp : L.Owns p i) (hq : L.Owns q i) : p = q := by
  obtain ⟨blocks,T⟩ := S.tiles
  exact T.unique hp hq

theorem bounds (hr : L.role p = some r) : 0 < p ∧ 0 < r.span ∧ p+r.span < 2^20 := by
  obtain ⟨blocks,T⟩ := S.tiles
  have hpos := T.positive p r hr
  have hinside := S.inside p r hr
  have hend := c.end_lt
  have hbase := c.base_pos
  omega

theorem zone_end (hz : L.role p = some (.zone b z)) : p+c.zonePages ≤ 2^20 :=
  le_of_lt (S.bounds hz).2.2

theorem page_lt (hr : L.role p = some r) : p < 2^20 := by
  have := S.bounds hr
  omega

theorem owns_inside (hp : L.Owns p i) : c.base ≤ i ∧ i < c.base+c.count := by
  obtain ⟨r,hr,h₁,h₂⟩ := hp
  have := S.inside p r hr
  omega

theorem owns_field (hz : L.role p = some (.zone b z)) (f : ZoneField) :
    L.Owns p (pageNo (ptr p+f.offset)) := by
  have hpages := c.zonePages_bounds
  rw [pageNo_headerField (S.page_lt hz)]
  exact ⟨_,hz,le_refl p,by rw [Role.span]; omega⟩

theorem owns_chunk (hz : L.role p = some (.zone b z)) (hk : k < z.total) :
    L.Owns p (pageNo (z.chunk p k)) :=
  ⟨_,hz,z.pageNo_chunk (S.zone_end hz) hk⟩

theorem toNat_entry (hi : i < c.base+c.count) :
    (c.entry i).toNat = c.table*4096+(i-c.base)*4 := by
  have htable := S.bounds ((S.table c.table).mpr rfl)
  have hentries := c.entries
  rw [Role.span] at htable
  rw [Config.entry,BitVec.toNat_ofNat,Nat.mod_eq_of_lt (by omega)]

theorem owns_entry (hi : i < c.base+c.count) : L.Owns c.table (pageNo (c.entry i)) := by
  have hentries := c.entries
  have hpages := c.tablePages_pos
  refine ⟨.table,(S.table c.table).mpr rfl,?_⟩
  rw [pageNo,S.toNat_entry hi,Role.span]
  omega

theorem entry_inj {j : ℕ} (hi : c.base ≤ i ∧ i < c.base+c.count)
    (hj : c.base ≤ j ∧ j < c.base+c.count) (h : c.entry i = c.entry j) : i = j := by
  have heq := congrArg BitVec.toNat h
  rw [S.toNat_entry hi.2,S.toNat_entry hj.2] at heq
  omega

/-- A word of `memusage` lies in no zone. -/
theorem table_ne_zone (hz : L.role p = some (.zone b z)) (hi : L.Owns p i) : ¬L.Owns c.table i := by
  intro ht
  have heq := S.unique hi ht
  rw [heq,(S.table c.table).mpr rfl] at hz
  cases hz

/-- What a client holds lies in the block. -/
theorem gives_inside (hr : L.role p = some r) (hg : r.Gives p e) :
    p*4096 ≤ e.start ∧ e.start+e.length ≤ (p+r.span)*4096 ∧ 0 < e.length := by
  have hbounds := S.bounds hr
  match r,e,hg with
  | .zone true z,.bytes a n,⟨k,hk,ha,hn⟩ =>
      have hstart := z.chunkAt_start (p := p) (k := k)
      have hend := z.chunkAt_end (p := p) (z.lt_total (Or.inl hk))
      have hsize := z.size_bounds
      simp only [Holding.start,Holding.length,Role.span]
      omega
  | .large m,.bytes a n,⟨ha,hn⟩ =>
      simp only [Holding.start,Holding.length,Role.span] at hbounds ⊢
      omega
  | .pages m,.pages a n,⟨ha,hn⟩ =>
      simp only [Holding.start,Holding.length,Role.span] at hbounds ⊢
      subst ha hn
      omega

/-- What is held lies in the heap. -/
theorem live_inside (he : L.Live e) :
    c.base*4096 ≤ e.start ∧ e.start+e.length ≤ (c.base+c.count)*4096 := by
  obtain ⟨p,r,hr,hg⟩ := he
  have hinside := S.gives_inside hr hg
  have hheap := S.inside p r hr
  exact ⟨le_trans (Nat.mul_le_mul_right 4096 hheap.1) hinside.1,
    le_trans hinside.2.1 (Nat.mul_le_mul_right 4096 hheap.2)⟩

theorem at_owns (ha : L.At p e) (hx : e.Covers x) : L.Owns p (pageNo x) := by
  obtain ⟨r,hr,hg⟩ := ha
  have hinside := S.gives_inside hr hg
  obtain ⟨h₁,h₂⟩ := hx
  exact ⟨r,hr,by unfold pageNo; omega,by unfold pageNo; omega⟩

/-- What is held begins in the block. -/
theorem at_start (ha : L.At p e) : L.Owns p (e.start/4096) := by
  obtain ⟨r,hr,hg⟩ := ha
  have hinside := S.gives_inside hr hg
  exact ⟨r,hr,by omega,by omega⟩

theorem at_unique (ha : L.At p e) (ha' : L.At q e) : p = q := S.unique (S.at_start ha) (S.at_start ha')

/-- Two things held by clients are disjoint. -/
theorem live_apart (he : L.Live e) (he' : L.Live e') (hne : e ≠ e') :
    e.start+e.length ≤ e'.start ∨ e'.start+e'.length ≤ e.start := by
  obtain ⟨p,r,hr,hg⟩ := he
  obtain ⟨q,s,hs,hg'⟩ := he'
  have hinside := S.gives_inside hr hg
  have hinside' := S.gives_inside hs hg'
  by_cases hpq : p = q
  · subst hpq
    rw [hr] at hs
    cases hs
    match r,e,e',hg,hg' with
    | .zone true z,.bytes a n,.bytes a' n',⟨k,hk,ha,hn⟩,⟨l,hl,ha',hn'⟩ =>
        have hkl : k ≠ l := by
          rintro rfl
          exact hne (by rw [ha,ha',hn,hn'])
        subst ha ha' hn hn'
        exact z.chunkAt_apart hkl
    | .large m,.bytes a n,.bytes a' n',⟨ha,hn⟩,⟨ha',hn'⟩ =>
        exact (hne (by rw [ha,ha',hn,hn'])).elim
    | .pages m,.pages a n,.pages a' n',⟨ha,hn⟩,⟨ha',hn'⟩ =>
        exact (hne (by rw [ha,ha',hn,hn'])).elim
  · by_contra hover
    -- the later one of the two first bytes lies in both blocks
    have hpage : ∃ i, (p ≤ i ∧ i < p+r.span) ∧ q ≤ i ∧ i < q+s.span := by
      refine ⟨(max e.start e'.start)/4096,?_⟩
      omega
    obtain ⟨i,hi,hi'⟩ := hpage
    exact hpq (S.unique ⟨r,hr,hi⟩ ⟨s,hs,hi'⟩)

/-- Clients do not hold the header of a zone. -/
theorem header_private (hz : L.role p = some (.zone b z)) (he : L.Live e) (f : ZoneField) :
    ¬e.Covers (ptr p+f.offset) := by
  intro hx
  obtain ⟨q,ha⟩ := he
  obtain rfl := S.unique (S.at_owns ha hx) (S.owns_field hz f)
  obtain ⟨r,hr,hg⟩ := ha
  rw [hz] at hr
  cases hr
  match b,e,hg with
  | true,.bytes a n,⟨k,_,ha,_⟩ =>
      have hstart := z.chunkAt_start (p := q) (k := k)
      have hfield := toNat_field (S.page_lt hz) f
      have hoffset := offset_le f
      have := hx.1
      simp only [Holding.start] at this
      omega

/-- Clients hold nothing of a chunk that is not live. -/
theorem chunk_private (hz : L.role p = some (.zone b z)) (hk : k < z.total) (hlive : k ∉ z.live)
    (he : L.Live e) {n : ℕ} (hn : n < z.size) (hx : x.toNat = z.chunkAt p k+n) : ¬e.Covers x := by
  intro hc
  have hstart := z.chunkAt_start (p := p) (k := k)
  have hend := z.chunkAt_end (p := p) hk
  have howns : L.Owns p (pageNo x) := by
    refine ⟨_,hz,?_,?_⟩
    · unfold pageNo
      omega
    · rw [Role.span]
      unfold pageNo
      omega
  obtain ⟨q,ha⟩ := he
  obtain rfl := S.unique (S.at_owns ha hc) howns
  obtain ⟨r,hr,hg⟩ := ha
  rw [hz] at hr
  cases hr
  match b,e,hg with
  | true,.bytes a m,⟨l,hl,ha,hm⟩ =>
      have hkl : k ≠ l := by
        rintro rfl
        exact hlive hl
      have := z.chunkAt_apart (p := q) hkl
      obtain ⟨h₁,h₂⟩ := hc
      simp only [Holding.start,Holding.length] at h₁ h₂
      omega

/-- Clients hold nothing of a page that belongs to no block or to `memusage`. -/
theorem page_private (hp : ∀ q, L.Owns q (pageNo x) → q = c.table) (he : L.Live e) :
    ¬e.Covers x := by
  intro hx
  obtain ⟨q,ha⟩ := he
  obtain rfl := hp q (S.at_owns ha hx)
  obtain ⟨r,hr,hg⟩ := ha
  rw [(S.table c.table).mpr rfl] at hr
  cases hr
  exact hg

theorem entry_private (hi : i < c.base+c.count) (he : L.Live e) : ¬e.Covers (c.entry i) :=
  S.page_private (fun _ hq => S.unique hq (S.owns_entry hi)) he

end Shape

end CosKernel.HeapBlocks
