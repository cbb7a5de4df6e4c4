import CosKernel.PageUsage

/-!
# Retiring zones

A zone without live chunks is taken out of its list in `zone_array`, by a walk along the links of
the list. Then it moves to `zone_free`, or its pages are to be freed. A layout loses the zone from
its list and gives its pages another role.
-/
namespace CosKernel.HeapBlocks
open SlabHeap PageAllocator LinkedChain IntervalFreeList BlockMaps

variable {c : Config}

section unlinking

variable {h : SlabHeap} {i : Fin NZONES} {x y v : Word} {cell pz : Option Word} {bs : List Word}

theorem zoneLink_setZoneLink : (h.setZoneLink i cell v).zoneLink i cell = v := by
  cases cell with
  | none => exact Function.update_self ..
  | some y => exact zone_setZone_self

theorem next_setZone (hne : y ≠ x) : (h.setZone x .next v).zone y .next = h.zone y .next := by
  refine mem_set_of_ne fun heq => hne ?_
  exact (BitVec.add_left_inj _).mp heq

theorem next_setZoneLink (hne : cell ≠ some y) :
    (h.setZoneLink i cell v).zone y .next = h.zone y .next := by
  cases cell with
  | none => rfl
  | some x => exact next_setZone fun heq => hne (by rw [heq])

theorem zoneLink_of_ne (hne : cell ≠ pz) : (h.setZoneLink i cell v).zoneLink i pz = h.zoneLink i pz := by
  cases pz with
  | none =>
      cases cell with
      | none => exact (hne rfl).elim
      | some x => rfl
  | some y => exact next_setZoneLink hne

/-- The search loop finds the zone `x` behind the zones `as`, and takes it out of the list. -/
theorem unlinkZone_spec (as : List Word) {fuel : ℕ} (hfuel : as.length < fuel)
    (hchain : Chain (nextZone h) (pointer (h.zoneLink i pz)) (as++x::bs))
    (hnodup : (as++x::bs).Nodup) (hpz : ∀ y, pz = some y → y ∉ as++x::bs) :
    ∃ cell, unlinkZone x i fuel h pz = some (h.setZoneLink i cell (h.zone x .next)) ∧
      (cell = pz ∨ ∃ y ∈ as, cell = some y) ∧
      Chain (nextZone (h.setZoneLink i cell (h.zone x .next)))
        (pointer ((h.setZoneLink i cell (h.zone x .next)).zoneLink i pz)) (as++bs) := by
  induction as generalizing fuel pz with
  | nil =>
      obtain ⟨n,rfl⟩ : ∃ n, fuel = n+1 := ⟨fuel-1,by simp only [List.length_nil] at hfuel; omega⟩
      obtain ⟨hx,-⟩ := pointer_eq_some.mp hchain.1
      refine ⟨pz,?_,Or.inl rfl,?_⟩
      · rw [unlinkZone,hx]
        exact if_pos rfl
      · rw [zoneLink_setZoneLink]
        refine hchain.2.congr fun y hy => ?_
        rw [nextZone,next_setZoneLink,nextZone]
        exact fun heq => hpz y heq (List.mem_cons_of_mem x hy)
  | cons a as ih =>
      obtain ⟨n,rfl⟩ : ∃ n, fuel = n+1 := ⟨fuel-1,by simp only [List.length_cons] at hfuel; omega⟩
      obtain ⟨ha,hzero⟩ := pointer_eq_some.mp hchain.1
      obtain ⟨hfresh,hrest⟩ := List.nodup_cons.mp hnodup
      have hax : a ≠ x := by
        rintro rfl
        exact hfresh (by simp)
      have hlength : as.length < n := by
        rw [List.length_cons] at hfuel
        omega
      have hnext : Chain (nextZone h) (pointer (h.zoneLink i (some a))) (as++x::bs) := hchain.2
      obtain ⟨cell,hrun,hcell,hchain'⟩ := ih hlength hnext hrest fun y hy => by
        cases hy
        exact hfresh
      have hne : cell ≠ pz := by
        rintro rfl
        rcases hcell with rfl | ⟨y,hy,rfl⟩
        · exact hpz a rfl (by simp)
        · exact hpz y rfl (by simp [hy])
      refine ⟨cell,?_,Or.inr ?_,?_⟩
      · rw [unlinkZone,ha]
        simp only [hax,hzero,if_false]
        exact hrun
      · rcases hcell with rfl | ⟨y,hy,rfl⟩
        · exact ⟨a,List.mem_cons_self,rfl⟩
        · exact ⟨y,List.mem_cons_of_mem a hy,rfl⟩
      · rw [zoneLink_of_ne hne,ha]
        exact ⟨pointer_of_ne hzero,hchain'⟩

end unlinking

section retiring

variable {L : Layout c} {h h' : SlabHeap} {p fuel : ℕ} {z : Zone c}

theorem ptr_inj {p q : ℕ} (hp : p < 2^20) (hq : q < 2^20) (h : ptr p = ptr q) : p = q := by
  rw [← pageNo_ptr hp,h,pageNo_ptr hq]

/-- A list of zones is not longer than the heap. -/
theorem Kept.list_length (K : Kept L h) (i : Fin NZONES) : (L.lists i).length ≤ c.count := by
  have hsub : L.lists i ⊆ List.range' c.base c.count := by
    intro q hq
    obtain ⟨z,hz,-⟩ := ((K.lists i).mem q).mp hq
    have hin := K.shape.inside q _ hz
    have hpos := K.shape.bounds hz
    rw [List.mem_range'_1]
    omega
  have hle := ((K.lists i).nodup.subperm hsub).length_le
  rw [List.length_range'] at hle
  exact hle

/-- The zone at `p` has left its list and is marked; its link is the list `zone_free`. -/
structure Unlinked (L : Layout c) (p : ℕ) (i : Fin NZONES) (h h' : SlabHeap) : Prop where
  mem : ∀ x, x ≠ ptr p+ZoneField.magic.offset → x ≠ ptr p+ZoneField.next.offset →
    (∀ q ∈ L.lists i, q ≠ p → x ≠ ptr q+ZoneField.next.offset) → h'.mem x = h.mem x
  next : h'.zone (ptr p) .next = h.zoneFree
  chain : Chain (nextZone h') (pointer (h'.zoneArray i)) (((L.lists i).erase p).map ptr)
  array : ∀ j, j ≠ i → h'.zoneArray j = h.zoneArray j
  rest : {h' with mem := h.mem, zoneArray := h.zoneArray} = h

/-- The first part of `retire`. -/
theorem Kept.unlink (K : Kept L h) (hfuel : c.count < fuel) {i : Fin NZONES} (hp : p ∈ L.lists i) :
    ∃ h₁, unlinkZone (ptr p) i fuel h none = some h₁ ∧
      Unlinked L p i h ((h₁.setZone (ptr p) .magic (-1)).setZone (ptr p) .next h₁.zoneFree) := by
  have S := K.shape
  have T := K.lists i
  have hlt : ∀ q, q ∈ L.lists i → q < 2^20 := by
    intro q hq
    obtain ⟨z,hz,-⟩ := (T.mem q).mp hq
    exact S.page_lt hz
  have hplt := hlt p hp
  obtain ⟨as,bs,hl⟩ := List.append_of_mem hp
  have hnodup := T.nodup
  have hchain := T.chain
  have hlength := K.list_length i
  have hpas : p ∉ as := by
    intro h
    rw [hl] at hnodup
    exact List.disjoint_of_nodup_append hnodup h List.mem_cons_self
  have hmap : ((L.lists i).map ptr).Nodup :=
    hnodup.map_on fun q hq q' hq' => ptr_inj (hlt q hq) (hlt q' hq')
  have herase : (L.lists i).erase p = as++bs := by
    rw [hl,List.erase_append_right _ hpas,List.erase_cons_head]
  have hshort : (as.map ptr).length < fuel := by
    rw [hl,List.length_append] at hlength
    rw [List.length_map]
    omega
  rw [hl,List.map_append,List.map_cons] at hchain hmap
  have hlink : Chain (nextZone h) (pointer (h.zoneLink i none)) (as.map ptr++ptr p::bs.map ptr) :=
    hchain
  obtain ⟨cell,hrun,hcell,hchain'⟩ := unlinkZone_spec (as.map ptr) hshort hlink hmap nofun
  generalize hh₁ : h.setZoneLink i cell (h.zone (ptr p) .next) = h₁ at hrun hchain'
  -- the cell is an element of `zone_array` or the link of a zone of the list
  have hcell : cell = none ∨ ∃ q ∈ L.lists i, q ≠ p ∧ cell = some (ptr q) := by
    rcases hcell with hcell | ⟨y,hy,hcell⟩
    · exact Or.inl hcell
    · obtain ⟨q,hq,rfl⟩ := List.mem_map.mp hy
      refine Or.inr ⟨q,by rw [hl]; simp [hq],?_,hcell⟩
      rintro rfl
      exact hpas hq
  have hmem : ∀ x, (∀ q ∈ L.lists i, q ≠ p → x ≠ ptr q+ZoneField.next.offset) →
      h₁.mem x = h.mem x := by
    intro x hx
    rcases hcell with rfl | ⟨q,hq,hqp,rfl⟩
    · rw [← hh₁]
      rfl
    · rw [← hh₁]
      exact mem_set_of_ne (hx q hq hqp)
  have hrest : {h₁ with mem := h.mem, zoneArray := h.zoneArray} = h := by
    rw [← hh₁]
    cases cell <;> rfl
  refine ⟨h₁,hrun,?_,?_,?_,?_,hrest⟩
  · intro x hmagic hnext hx
    exact (mem_set_of_ne hnext).trans ((mem_set_of_ne hmagic).trans (hmem x hx))
  · rw [zone_setZone_self,← hrest]
  · rw [herase,List.map_append]
    refine hchain'.congr fun y hy => ?_
    rw [← List.map_append,← herase] at hy
    obtain ⟨q,hq,rfl⟩ := List.mem_map.mp hy
    obtain ⟨hqp,hq⟩ := hnodup.mem_erase_iff.mp hq
    have hne : ptr q ≠ ptr p := fun h => hqp (ptr_inj (hlt q hq) hplt h)
    rw [nextZone,next_setZone hne,nextZone]
    exact congrArg pointer (headerOnly_setZone.zone_other hplt (hlt q hq) hqp .next)
  · intro j hj
    change h₁.zoneArray j = _
    rw [← hh₁]
    rcases hcell with rfl | ⟨q,-,-,rfl⟩
    · exact Function.update_of_ne hj ..
    · rfl

/-- The zone at `p` leaves its list. -/
def Layout.leave (L : Layout c) (p : ℕ) (i : Fin NZONES) (r : Role c) (spare : List ℕ) : Layout c where
  role := Function.update L.role p (some r)
  lists := Function.update L.lists i ((L.lists i).erase p)
  spare := spare

/-- Only the words of a zone that is unlinked, and its entries of `memusage`, have changed. -/
theorem Unlinked.same {h₁ : SlabHeap} {i : Fin NZONES} (U : Unlinked L p i h h₁)
    (hmem : ∀ x, (∀ j, j < c.zonePages → x ≠ c.entry (p+j)) → h'.mem x = h₁.mem x) (x : Word)
    (hentry : ∀ j, j < c.zonePages → x ≠ c.entry (p+j)) (hmagic : x ≠ ptr p+ZoneField.magic.offset)
    (hnext : x ≠ ptr p+ZoneField.next.offset)
    (hlist : ∀ q ∈ L.lists i, q ≠ p → x ≠ ptr q+ZoneField.next.offset) : h'.mem x = h.mem x :=
  (hmem x hentry).trans (U.mem x hmagic hnext hlist)

/-- The links of the zones that are not in the list of the retired zone. -/
theorem Unlinked.next_other {h₁ : SlabHeap} {q : ℕ} {b : Bool} {y : Zone c} (K : Kept L h)
    (hz : L.role p = some (.zone true z)) (U : Unlinked L p z.index h h₁)
    (hq : L.role q = some (.zone b y)) (hqp : q ≠ p) (hqi : q ∉ L.lists z.index) :
    h₁.zone (ptr q) .next = h.zone (ptr q) .next := by
  have S := K.shape
  refine U.mem _ (fun heq => hqp ?_) (fun heq => hqp ?_) fun q' hq' _ heq => hqi ?_
  · exact S.unique (S.owns_field hq .next) (by rw [heq]; exact S.owns_field hz .magic)
  · exact S.unique (S.owns_field hq .next) (by rw [heq]; exact S.owns_field hz .next)
  · obtain ⟨y',hy',-⟩ := ((K.lists z.index).mem q').mp hq'
    rw [S.unique (S.owns_field hq .next) (by rw [heq]; exact S.owns_field hy' .next)]
    exact hq'

theorem Kept.leave {h₁ : SlabHeap} {r : Role c} {spare : List ℕ} (K : Kept L h)
    (hz : L.role p = some (.zone true z)) (U : Unlinked L p z.index h h₁)
    (hmem : ∀ x, (∀ j, j < c.zonePages → x ≠ c.entry (p+j)) → h'.mem x = h₁.mem x)
    (harray : h'.zoneArray = h₁.zoneArray) (hstatics : statics h' = statics h)
    (hlist : h'.pageList = h.pageList) (hr : r ≠ .table) (hspan : r.span = c.zonePages)
    (hnot : ∀ z', r ≠ .zone true z') (hrecorded : Recorded h' p r)
    (hspare : SpareKept (L.leave p z.index r spare) h') :
    Kept (L.leave p z.index r spare) h' := by
  have S := K.shape
  have T := K.lists z.index
  have hin := S.inside p _ hz
  rw [Role.span] at hin
  have hother : ∀ q, q ≠ p → (L.leave p z.index r spare).role q = L.role q :=
    fun q hq => Function.update_of_ne hq ..
  have hself : (L.leave p z.index r spare).lists z.index = (L.lists z.index).erase p :=
    Function.update_self ..
  have hrole : (L.leave p z.index r spare).role p = some r := Function.update_self ..
  have hready : ∀ j, ¬(L.leave p z.index r spare).Ready j p := by
    intro j
    apply Layout.not_ready
    intro z' hz'
    rw [hrole] at hz'
    exact hnot z' (Option.some.inj hz')
  have hnodup := T.nodup
  have hnext : ∀ q b y, L.role q = some (.zone b y) → q ≠ p → h'.zone (ptr q) .next = h₁.zone (ptr q) .next := by
    refine fun q b y hq _ => hmem _ fun j hj heq => S.table_ne_zone hq (S.owns_field hq .next) ?_
    rw [heq]
    exact S.owns_entry (by omega)
  refine K.replace hz (by simp) r hr hspan rfl ?_ hstatics hlist hrecorded
    (K.lists_of (i := z.index) ?_ hother ?_ ?_ (fun j _ => hready j) ?_ ?_) hspare
  · intro x hx
    refine U.same hmem x (fun j hj heq => hx ?_) (fun heq => hx ?_) (fun heq => hx ?_)
      fun q hq _ heq => hx ?_
    · exact Or.inr (Or.inl ⟨p+j,⟨_,hz,by omega,by rw [Role.span]; omega⟩,heq⟩)
    · rw [heq]
      exact Or.inl (S.owns_field hz .magic)
    · exact Or.inr (Or.inr ⟨p,_,_,hz,heq⟩)
    · obtain ⟨y,hy,-⟩ := (T.mem q).mp hq
      exact Or.inr (Or.inr ⟨q,_,_,hy,heq⟩)
  · refine T.change hother ?_ ?_ ?_ ?_
    · rw [hself,harray]
      refine U.chain.congr fun x hx => ?_
      obtain ⟨q,hq,rfl⟩ := List.mem_map.mp hx
      obtain ⟨hqp,hq⟩ := hnodup.mem_erase_iff.mp hq
      obtain ⟨y,hy,-⟩ := (T.mem q).mp hq
      rw [nextZone,hnext q true y hy hqp,nextZone]
    · rw [hself]
      exact hnodup.erase p
    · intro q hq
      rw [hself,hnodup.mem_erase_iff]
      simp only [hq,ne_eq,not_false_iff,true_and]
    · rw [hself,hnodup.mem_erase_iff]
      simp only [ne_eq,not_true_eq_false,false_and,hready]
  · exact fun j hj => Function.update_of_ne hj ..
  · intro j hj
    rw [Layout.ready_iff hz]
    exact fun h => hj h.1.symm
  · intro j hj
    rw [harray]
    exact U.array j hj
  · intro q b y hq hqp hqi
    rw [hnext q b y hq hqp]
    exact U.next_other K hz hq hqp hqi

theorem Unlinked.spares {h₁ : SlabHeap} (K : Kept L h) (hz : L.role p = some (.zone true z))
    (U : Unlinked L p z.index h h₁)
    (hmem : ∀ x, (∀ j, j < c.zonePages → x ≠ c.entry (p+j)) → h'.mem x = h₁.mem x) :
    Spares L h h' := by
  have S := K.shape
  have hin := S.inside p _ hz
  rw [Role.span] at hin
  intro e x he hx
  refine U.same hmem x (fun j hj heq => ?_) (fun heq => ?_) (fun heq => ?_) fun q hq _ heq => ?_
  · rw [heq] at hx
    exact S.entry_private (by omega) he hx
  · rw [heq] at hx
    exact S.header_private hz he .magic hx
  · rw [heq] at hx
    exact S.header_private hz he .next hx
  · obtain ⟨y,hy,-⟩ := ((K.lists z.index).mem q).mp hq
    rw [heq] at hx
    exact S.header_private hy he .next hx

/-- A retired zone keeps its header, except for the mark and the link. -/
theorem Unlinked.record {h₁ : SlabHeap} (K : Kept L h) (hz : L.role p = some (.zone true z))
    (U : Unlinked L p z.index h h₁) (hmem : h'.mem = h₁.mem) (hempty : z.live = []) :
    ZoneRecord h' p false z := by
  have S := K.shape
  have hend := S.zone_end hz
  have hin := S.inside p _ hz
  rw [Role.span] at hin
  -- a word of another zone is not in the header
  have hword : ∀ x, L.Owns p (pageNo x) → x ≠ ptr p+ZoneField.magic.offset →
      x ≠ ptr p+ZoneField.next.offset → h'.mem x = h.mem x := by
    intro x hx hmagic hnext
    rw [hmem]
    refine U.mem x hmagic hnext fun q hq hqp heq => hqp ?_
    obtain ⟨y,hy,-⟩ := ((K.lists z.index).mem q).mp hq
    exact S.unique (S.owns_field hy .next) (by rw [← heq]; exact hx)
  refine ⟨(K.held hz).frame (fun f hf hn => ?_) (fun k hk => ?_),fun j hj => ?_,
    fun hb => Bool.noConfusion hb,fun _ => hempty⟩
  · exact hword _ (S.owns_field hz f) (fun heq => hf (field_inj.mp heq)) fun heq => hn (field_inj.mp heq)
  · have hlt := z.lt_total (Or.inr hk)
    exact hword _ (S.owns_chunk hz hlt) (z.chunk_ne_field hend hlt _) (z.chunk_ne_field hend hlt _)
  · refine ((K.record hz).usage j hj).frame ?_
    have hentry := S.owns_entry (i := p+j) (by omega)
    rw [hmem]
    refine U.mem _ (fun heq => ?_) (fun heq => ?_) fun q hq _ heq => ?_
    · exact S.table_ne_zone hz (S.owns_field hz .magic) (by rw [← heq]; exact hentry)
    · exact S.table_ne_zone hz (S.owns_field hz .next) (by rw [← heq]; exact hentry)
    · obtain ⟨y,hy,-⟩ := ((K.lists z.index).mem q).mp hq
      exact S.table_ne_zone hy (S.owns_field hy .next) (by rw [← heq]; exact hentry)

/-- A retired zone moves to `zone_free`. -/
theorem Unlinked.to_spare {h₂ : SlabHeap} (K : Kept L h) (hz : L.role p = some (.zone true z))
    (U : Unlinked L p z.index h h₂) (hempty : z.live = []) (hfew : L.spare.length < 2) :
    Kept (L.leave p z.index (.zone false z) (p::L.spare))
      {h₂ with zoneFree := ptr p, zoneFreeCnt := h₂.zoneFreeCnt+1} := by
  have S := K.shape
  have hne : ptr p ≠ 0 := ptr_ne_zero (S.bounds hz).1 (S.page_lt hz)
  have hcount := K.spare.count
  have hcnt : h₂.zoneFreeCnt = h.zoneFreeCnt := by rw [← U.rest]
  have hspare : p ∉ L.spare := by
    rw [K.spare.mem,hz]
    simp
  refine K.leave hz U (fun _ _ => rfl) rfl (by rw [← U.rest]; rfl) (by rw [← U.rest]) (by simp) rfl
    (by simp) (U.record K hz rfl hempty) ?_
  refine ⟨⟨pointer_of_ne hne,?_⟩,List.nodup_cons.mpr ⟨hspare,K.spare.nodup⟩,fun q => ?_,?_,?_⟩
  · change Chain _ (pointer (h₂.zone (ptr p) .next)) (L.spare.map ptr)
    rw [U.next]
    refine K.spare.chain.congr fun x hx => ?_
    obtain ⟨q,hq,rfl⟩ := List.mem_map.mp hx
    obtain ⟨y,hy⟩ := (K.spare.mem q).mp hq
    have hqp : q ≠ p := by
      rintro rfl
      exact hspare hq
    have hqi : q ∉ L.lists z.index := by
      rw [(K.lists z.index).mem]
      apply Layout.not_ready
      rw [hy]
      simp
    have hnext := U.next_other K hz hy hqp hqi
    exact congrArg pointer hnext
  · change q ∈ p::L.spare ↔ _
    rw [List.mem_cons,K.spare.mem]
    by_cases hq : q = p
    · rw [hq]
      simp [Layout.leave]
    · rw [show (L.leave p z.index (.zone false z) (p::L.spare)).role q = L.role q from
        Function.update_of_ne hq ..]
      simp only [hq,false_or]
  · change (h₂.zoneFreeCnt+1).toNat = L.spare.length+1
    rw [hcnt]
    bv_omega
  · change L.spare.length+1 ≤ 2
    omega

/-- The pages of a retired zone are marked as free in `memusage`. -/
theorem Unlinked.to_pages {h₂ h₃ : SlabHeap} (K : Kept L h) (hz : L.role p = some (.zone true z))
    (U : Unlinked L p z.index h h₂)
    (honly : ∀ x, (∀ j, j < c.zonePages → x ≠ c.entry (p+j)) → h₃.mem x = h₂.mem x)
    (hrest : {h₃ with mem := h₂.mem} =
      {h₂ with zoneFree := h₂.zone (ptr p) .next, zoneFreeCnt := h₂.zoneFreeCnt+1-1}) :
    Kept (L.leave p z.index (.pages c.zonePages) L.spare) h₃ := by
  have S := K.shape
  have hin := S.inside p _ hz
  rw [Role.span] at hin
  have hstatics : statics h₂ = statics h := by rw [← U.rest]; rfl
  have hlist : h₂.pageList = h.pageList := by rw [← U.rest]
  have hcnt : h₂.zoneFreeCnt = h.zoneFreeCnt := by rw [← U.rest]
  refine K.leave hz U honly ?_ ?_ ?_ (by simp) rfl (by simp) trivial ?_
  · have harray := congrArg SlabHeap.zoneArray hrest
    exact harray
  · exact (congrArg statics hrest).trans hstatics
  · exact (congrArg SlabHeap.pageList hrest).trans hlist
  · refine K.spare_of (i := z.index) (fun q hq => Function.update_of_ne hq ..) rfl (by rw [hz]; simp)
      ?_ ?_ ?_ ?_
    · rw [show (L.leave p z.index (.pages c.zonePages) L.spare).role p = some (.pages c.zonePages) from
        Function.update_self ..]
      simp
    · exact (congrArg SlabHeap.zoneFree hrest).trans U.next
    · refine (congrArg SlabHeap.zoneFreeCnt hrest).trans ?_
      change h₂.zoneFreeCnt+1-1 = _
      rw [hcnt]
      bv_omega
    · intro q b y hq hqp hqi
      rw [← U.next_other K hz hq hqp hqi]
      refine honly _ fun j hj heq => S.table_ne_zone hq (S.owns_field hq .next) ?_
      rw [heq]
      exact S.owns_entry (by omega)

/-- A retired zone moves to `zone_free`, or its pages are to be freed. -/
theorem Kept.retire (K : Kept L h) (hfuel : c.count < fuel) (hz : L.role p = some (.zone true z))
    (hempty : z.live = []) :
    (∃ h', h.retire fuel (ptr p) z.index = some (none,h') ∧
      Kept (L.leave p z.index (.zone false z) (p::L.spare)) h' ∧ Spares L h h' ∧
      account h' = account h) ∨
    ∃ h', h.retire fuel (ptr p) z.index = some (some (ptr p),h') ∧
      Kept (L.leave p z.index (.pages c.zonePages) L.spare) h' ∧ Spares L h h' ∧
      account h' = account h := by
  have S := K.shape
  have hin := S.inside p _ hz
  rw [Role.span] at hin
  have hp : p ∈ L.lists z.index := by
    rw [(K.lists z.index).mem,Layout.ready_iff hz,hempty]
    have := z.two_le_total
    exact ⟨rfl,by rw [List.length_nil]; omega⟩
  obtain ⟨h₁,hrun,U⟩ := K.unlink hfuel hp
  generalize hh₂ : (h₁.setZone (ptr p) .magic (-1)).setZone (ptr p) .next h₁.zoneFree = h₂ at U
  have hretire : h.retire fuel (ptr p) z.index =
      if ZONE_RELEASE_THRESH < h₂.zoneFreeCnt+1 then
        some (some (ptr p),setUsages (h₂.btokup (ptr p)) PAGE_TYPE_FREE (fun _ => 0) h₂.zonePageCnt.toNat
          {h₂ with zoneFree := h₂.zone (ptr p) .next, zoneFreeCnt := h₂.zoneFreeCnt+1-1})
      else some (none,{h₂ with zoneFree := ptr p, zoneFreeCnt := h₂.zoneFreeCnt+1}) := by
    unfold SlabHeap.retire
    rw [hrun,← hh₂]
    rfl
  have hstatics : statics h₂ = statics h := by rw [← U.rest]; rfl
  have haccount : account h₂ = account h := by rw [← U.rest]; rfl
  have hcount := K.spare.count
  have hbound := K.spare.bound
  have hthresh : ZONE_RELEASE_THRESH < h₂.zoneFreeCnt+1 ↔ L.spare.length = 2 := by
    rw [show h₂.zoneFreeCnt = h.zoneFreeCnt by rw [← U.rest],ZONE_RELEASE_THRESH]
    constructor <;> intro h <;> bv_omega
  by_cases hmany : L.spare.length = 2
  · right
    rw [hretire,if_pos (hthresh.mpr hmany)]
    have hentry : h₂.btokup (ptr p) = c.entry p :=
      (K.setup.frame hstatics).btokup ⟨hin.1,by have := c.zonePages_bounds; omega⟩
        (pageNo_ptr (S.page_lt hz))
    have hpages : h₂.zonePageCnt.toNat = c.zonePages := (K.setup.frame hstatics).zonePageCnt
    rw [hentry,hpages]
    obtain ⟨honly,hrest,-⟩ := setUsages_spec S hin.1 c.zonePages hin.2 PAGE_TYPE_FREE
      (fun _ => 0) (by decide) (fun _ _ => by decide)
      {h₂ with zoneFree := h₂.zone (ptr p) .next, zoneFreeCnt := h₂.zoneFreeCnt+1-1}
    generalize setUsages (c.entry p) PAGE_TYPE_FREE (fun _ => 0) c.zonePages
      {h₂ with zoneFree := h₂.zone (ptr p) .next, zoneFreeCnt := h₂.zoneFreeCnt+1-1} = h₃ at honly hrest
    exact ⟨h₃,rfl,U.to_pages K hz honly hrest,U.spares K hz honly,(congrArg account hrest).trans haccount⟩
  · left
    rw [hretire,if_neg fun h => hmany (hthresh.mp h)]
    exact ⟨_,rfl,U.to_spare K hz hempty (by omega),U.spares K hz fun _ _ => rfl,haccount⟩

end retiring

end CosKernel.HeapBlocks
