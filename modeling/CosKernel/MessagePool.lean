import CosKernel.ByteMemory
import CosKernel.HeapContracts
import CosKernel.MessageDeque

/-!
# The pool of a message queue

The constructor divides `pool_size` bytes into slots of a header and `msg_size_` bytes each,
but asks `kmalloc` for one message only, without its header. Besides, `msg_size_` and
`max_msgs_` have 16 bits. The slots are in the block only where there is none, or one that
fits into what the request was rounded up by.
-/
namespace CosKernel
open SlabHeap Heap LockedPrograms LockedPrograms.Program

def CONFIG_ALIGN_SIZE : Word := 4

namespace MessageQueue

/-- The size of `struct mq_message`, a pointer. -/
def headerSize : Word := 4

/-- The field `msg_size_`. -/
def msgSizeOf (msg_size : Word) : BitVec 16 := (WIDTH_ALIGN msg_size CONFIG_ALIGN_SIZE).setWidth 16

/-- The distance of two slots. -/
def stride (msgSize : BitVec 16) : Word := msgSize.setWidth 32+headerSize

/-- The field `max_msgs_`. -/
def maxMsgsOf (msgSize : BitVec 16) (pool_size : Word) : BitVec 16 :=
  (pool_size/stride msgSize).setWidth 16

def slotAddress (pool : Word) (msgSize : BitVec 16) (msg : ℕ) : Word :=
  pool+BitVec.ofNat 32 msg*stride msgSize

/-- The loop of the constructor: the first `n` slots are made free in turn. -/
def threadFree (q : MessageQueue) : ℕ → MessageQueue
  | 0 => q
  | n+1 =>
      let q := q.threadFree n
      {q.setNext n q.free with free := some n}

/-- The constructor: the address of the pool, `max_msgs_`, and the queue. The bytes of the
slots are what the memory held before. -/
def allocate (fuel : ℕ) (down : Bool) (msg_size pool_size : Word) :
    HeapProgram (Word × BitVec 16 × MessageQueue) := do
  let pool ← kmalloc fuel down msg_size
  let msgSize := msgSizeOf msg_size
  let maxMsgs := maxMsgsOf msgSize pool_size
  let payload ← get fun h => fun msg => (List.range msgSize.toNat).map
    (HeapBlocks.byteAt h (slotAddress pool msgSize msg+headerSize))
  pure (pool,maxMsgs,threadFree ⟨fun _ => none,payload,msgSize,0,none,none,none⟩ maxMsgs.toNat)

end MessageQueue

namespace MessageDeque
open HeapBlocks ByteMemory LinkedChain ExclusiveCustody TransitionRuns MessageQueue

section accesses

variable {σ κ θ : Type}

/-- The slots whose payload a step of the calls copies, and how many bytes of it. -/
def copies (w : World σ κ θ) : Step σ κ θ → List (ℕ × ℕ)
  | .link c =>
      match w.place c with
      | .sending msg buffer | .urging msg buffer => [(msg,buffer.length)]
      | _ => []
  | .recycle c =>
      match w.place c with
      | .copying msg size _ =>
          [(msg,if w.queue.msgSize.toNat < size then w.queue.msgSize.toNat else size)]
      | _ => []
  | _ => []

/-- The payload copies of the step are inside the block of `length` bytes at `pool`. -/
def CopiesInside (pool : Word) (msgSize : BitVec 16) (length : ℕ) (w : World σ κ θ)
    (a : Step σ κ θ) : Prop :=
  ∀ x ∈ copies w a, span (slotAddress pool msgSize x.1+headerSize) x.2 ⊆ span pool length

end accesses

/-- The bytes of a slot. -/
def slot (pool : Word) (msgSize : BitVec 16) (msg : ℕ) : Set Word :=
  span (slotAddress pool msgSize msg) (stride msgSize).toNat

/-- The first `n` slots have room for messages of `msg_size` bytes, they are inside the block of
`length` bytes at `pool`, and apart from each other. -/
structure SlotsInside (msg_size pool : Word) (msgSize : BitVec 16) (n length : ℕ) : Prop where
  room : ∀ i < n, msg_size.toNat ≤ msgSize.toNat
  inside : ∀ i < n, slot pool msgSize i ⊆ span pool length
  apart : ∀ i < n, ∀ j < n, i ≠ j → Disjoint (slot pool msgSize i) (slot pool msgSize j)

section slots

variable {msg_size pool : Word} {msgSize : BitVec 16} {n length : ℕ}

theorem toNat_stride (msgSize : BitVec 16) : (stride msgSize).toNat = msgSize.toNat+4 := by
  unfold stride headerSize
  bv_omega

theorem toNat_slotAddress_sub (pool : Word) {i : ℕ} (hi : i*(msgSize.toNat+4) < 2^32) :
    (slotAddress pool msgSize i-pool).toNat = i*(msgSize.toNat+4) := by
  have hsub : slotAddress pool msgSize i-pool = BitVec.ofNat 32 i*stride msgSize := by
    unfold slotAddress
    ring
  rw [hsub,BitVec.toNat_mul,BitVec.toNat_ofNat,toNat_stride,Nat.mod_mul_mod,Nat.mod_eq_of_lt hi]

/-- A slot is inside the block just when it ends there. -/
theorem slot_subset_iff {i : ℕ} (hlength : length < 2^32) (hi : i*(msgSize.toNat+4) ≤ length) :
    slot pool msgSize i ⊆ span pool length ↔ (i+1)*(msgSize.toNat+4) ≤ length := by
  have hoff := toNat_slotAddress_sub pool (show i*(msgSize.toNat+4) < 2^32 by omega)
  rw [Nat.succ_mul]
  constructor
  · intro h
    by_contra hlt
    -- The slot has the byte that follows the block.
    have hmem : pool+BitVec.ofNat 32 length ∈ slot pool msgSize i := by
      rw [slot,mem_span,toNat_stride]
      bv_omega
    have := h hmem
    rw [mem_span] at this
    bv_omega
  · intro h
    refine span_subset ?_
    rw [hoff,toNat_stride]
    exact h

/-- Two slots of which the first ends before the second begins. -/
theorem slot_disjoint {i j : ℕ} (hij : i < j) (hj : (j+1)*(msgSize.toNat+4) < 2^32) :
    Disjoint (slot pool msgSize i) (slot pool msgSize j) := by
  have hle : (i+1)*(msgSize.toNat+4) ≤ j*(msgSize.toNat+4) := Nat.mul_le_mul_right _ hij
  rw [Nat.succ_mul] at hle hj
  have hi := toNat_slotAddress_sub pool (show i*(msgSize.toNat+4) < 2^32 by omega)
  have hj' := toNat_slotAddress_sub pool (show j*(msgSize.toNat+4) < 2^32 by omega)
  generalize i*(msgSize.toNat+4) = x at *
  generalize j*(msgSize.toNat+4) = y at *
  refine span_disjoint ?_ ?_
  · rw [toNat_stride]
    bv_omega
  · rw [toNat_stride]
    bv_omega

theorem slotsInside_iff (hlength : length < 2^32) :
    SlotsInside msg_size pool msgSize n length ↔
      n = 0 ∨ msg_size.toNat ≤ msgSize.toNat ∧ n*(msgSize.toNat+4) ≤ length := by
  constructor
  · intro H
    rcases Nat.eq_zero_or_pos n with hn | hn
    · exact .inl hn
    refine .inr ⟨H.room 0 hn,?_⟩
    by_contra hlt
    -- The slot that the block ends in begins inside it.
    have hpos : 0 < msgSize.toNat+4 := by omega
    have hbegin : length/(msgSize.toNat+4)*(msgSize.toNat+4) ≤ length := Nat.div_mul_le_self _ _
    have hin : length/(msgSize.toNat+4) < n := (Nat.div_lt_iff_lt_mul hpos).mpr (by omega)
    have hend := (slot_subset_iff hlength hbegin).mp (H.inside _ hin)
    have hbehind := Nat.lt_mul_div_succ length hpos
    rw [Nat.mul_comm] at hbehind
    omega
  · rintro (rfl | ⟨hroom,hfit⟩)
    · exact ⟨nofun,nofun,nofun⟩
    · have hend : ∀ i < n, (i+1)*(msgSize.toNat+4) ≤ length := fun i hi =>
        (Nat.mul_le_mul_right _ hi).trans hfit
      refine ⟨fun _ _ => hroom,fun i hi => ?_,fun i hi j hj hne => ?_⟩
      · refine (slot_subset_iff hlength ?_).mpr (hend i hi)
        have := hend i hi
        rw [Nat.succ_mul] at this
        omega
      · rcases Nat.lt_or_gt_of_ne hne with hij | hji
        · exact slot_disjoint hij ((hend j hj).trans_lt hlength)
        · exact (slot_disjoint hji ((hend i hi).trans_lt hlength)).symm

/-- The payload of a slot is a part of it. -/
theorem payload_subset {pool : Word} {msgSize : BitVec 16} {msg n : ℕ} (hn : n ≤ msgSize.toNat) :
    span (slotAddress pool msgSize msg+headerSize) n ⊆ slot pool msgSize msg := by
  refine span_subset ?_
  rw [toNat_stride,headerSize]
  bv_omega

end slots

section queue

variable {q : MessageQueue} {n : ℕ}

/-- The constructor leaves the last slot in front. -/
theorem threadFree_spec (hfree : q.free = none) (n : ℕ) :
    Chain (q.threadFree n).next (q.threadFree n).free (List.range n).reverse ∧
      (q.threadFree n).head = q.head ∧ (q.threadFree n).tail = q.tail ∧
      (q.threadFree n).entry = q.entry ∧ (q.threadFree n).msgSize = q.msgSize := by
  induction n with
  | zero => exact ⟨hfree,rfl,rfl,rfl,rfl⟩
  | succ n ih =>
      obtain ⟨hchain,hrest⟩ := ih
      refine ⟨?_,hrest⟩
      rw [List.range_succ,List.reverse_append]
      exact hchain.push (by simp)

theorem drain_msgSize {fuel : ℕ} {q' : MessageQueue} (h : q.drain fuel = some q') :
    q'.msgSize = q.msgSize := by
  induction fuel generalizing q with
  | zero => cases h
  | succ fuel ih =>
      rw [MessageQueue.drain] at h
      split at h
      · cases h
        rfl
      · exact (ih h).trans rfl

theorem Received.msgSize {q' : MessageQueue} {r : Progress (ℤ ⊕ ℕ)} (h : Received q q' r) :
    q'.msgSize = q.msgSize := by
  cases h <;> rfl

end queue

section run

variable {σ ο κ θ : Type} {w w' : World σ κ θ}

/-- A call holds one of the slots, and copies no more than its payload. -/
theorem copies_le {slots fs hs : List ℕ} (H : Invariant slots w fs hs) {a : Step σ κ θ} {x : ℕ × ℕ}
    (hx : x ∈ copies w a) : x.1 ∈ slots ∧ x.2 ≤ w.queue.msgSize.toNat := by
  have hslot : ∀ c msg, (w.place c).slot = some msg → msg ∈ slots := fun c msg hc =>
    (H.refines.slots msg).mpr (.inr ⟨c,hc⟩)
  cases a with
  | link c =>
      have hholding := H.holding c
      simp only [copies] at hx
      split at hx
      · next msg buffer hp =>
          obtain rfl := List.mem_singleton.mp hx
          rw [hp] at hholding
          exact ⟨hslot c msg (by rw [hp]; rfl),hholding⟩
      · next msg buffer hp =>
          obtain rfl := List.mem_singleton.mp hx
          rw [hp] at hholding
          exact ⟨hslot c msg (by rw [hp]; rfl),hholding⟩
      · cases hx
  | recycle c =>
      simp only [copies] at hx
      split at hx
      · next msg size front hp =>
          obtain rfl := List.mem_singleton.mp hx
          refine ⟨hslot c msg (by rw [hp]; rfl),?_⟩
          simp only
          split_ifs
          · exact le_refl _
          · omega
      · cases hx
  | send c buffer => cases hx
  | urgent c buffer => cases hx
  | recv c t size timeout => cases hx
  | proceed c => cases hx
  | control fuel cmd => cases hx
  | system k tick => cases hx

variable [DecidableEq κ]

theorem queue_received {c : κ} {t : θ} {size : ℕ} {k : Kernel σ θ} {q : MessageQueue}
    {r : Progress (ℤ ⊕ ℕ)} : (w.received c t size (k,q,r)).queue = q := by
  cases r with
  | waiting timeout tickDelta => rfl
  | returned e => cases e <;> rfl

theorem reserve_msgSize {c : κ} {buffer : List (BitVec 8)} {p : ℕ → Place θ}
    (h : w.reserve c buffer p = some w') : w'.queue.msgSize = w.queue.msgSize := by
  obtain ⟨⟨q,r⟩,hr,rfl⟩ := Option.map_eq_some_iff.mp h
  obtain ⟨e,rfl,rfl⟩ | ⟨msg,rfl,-,rfl,-⟩ := reserve_some hr
  · rfl
  · rfl

variable [DecidableEq θ] [ListFamily σ (ListId ο) θ] {o : ο}

theorem link_queue {c : κ} {q : MessageQueue} {deque : List Message}
    (h : w.link o c q deque = some w') : w'.queue = q := by
  obtain ⟨r,-,rfl⟩ := Option.map_eq_some_iff.mp h
  rfl

theorem step_msgSize {a : Step σ κ θ} (h : step o w a = some w') :
    w'.queue.msgSize = w.queue.msgSize := by
  cases a with
  | send c buffer =>
      simp only [step] at h
      split at h
      · exact reserve_msgSize h
      · cases h
  | urgent c buffer =>
      simp only [step] at h
      split at h
      · exact reserve_msgSize h
      · cases h
  | link c =>
      simp only [step] at h
      split at h
      · rw [link_queue h]
        exact linkLast_msgSize
      · rw [link_queue h]
        rfl
      · cases h
  | recv c t size timeout =>
      simp only [step] at h
      split at h
      · obtain ⟨⟨k,q,r⟩,hr,rfl⟩ := Option.map_eq_some_iff.mp h
        rw [queue_received]
        exact (recv_received hr).msgSize
      · cases h
  | proceed c =>
      simp only [step] at h
      split at h
      · obtain ⟨⟨k,q,r⟩,hr,rfl⟩ := Option.map_eq_some_iff.mp h
        rw [queue_received]
        exact (recvProceed_received hr).msgSize
      · cases h
  | recycle c =>
      simp only [step] at h
      split at h
      · cases h
        rfl
      · cases h
  | control fuel cmd =>
      obtain ⟨⟨k,q,e⟩,hr,rfl⟩ := Option.map_eq_some_iff.mp h
      unfold MessageQueue.control at hr
      split_ifs at hr
      · simp only [Option.bind_eq_bind,Option.bind_eq_some_iff,Option.some.injEq,
          Prod.mk.injEq] at hr
        obtain ⟨k₁,-,q₁,hdrain,k₂,-,-,rfl,-⟩ := hr
        have hsize := drain_msgSize hdrain
        exact hsize
      · cases hr
        rfl
  | system k tick =>
      cases h
      rfl

theorem copiesInside {msg_size pool : Word} {msgSize : BitVec 16} {n length : ℕ}
    (S : SlotsInside msg_size pool msgSize n length) (hsize : w.queue.msgSize = msgSize)
    (hstart : Start (List.range n).reverse w) (as : List (Step σ κ θ)) :
    AllSteps (step o) (CopiesInside pool msgSize length) w as := by
  have hrun : Throughout (step o) (fun w => w.queue.msgSize = msgSize ∧
      ∃ fs hs, Invariant (List.range n).reverse w fs hs) w as :=
    throughout_of_step (fun _ h => h)
      (fun _ _ _ h hstep => ⟨(step_msgSize hstep).trans h.1,h.2.choose_spec.choose_spec.step hstep⟩)
      as ⟨hsize,_,_,hstart.invariant⟩
  refine hrun.allSteps.mono fun v a hv x hx => ?_
  obtain ⟨⟨hv,fs,hs,H⟩,-⟩ := hv
  obtain ⟨hslot,hle⟩ := copies_le H hx
  have hmsg : x.1 < n := by simpa using hslot
  exact (payload_subset (hv ▸ hle)).trans (S.inside x.1 hmsg)

end run

/-- The block that `kmalloc` returns for a request: it is rounded up to the chunk size of its
zone, or to pages. -/
def rounded (h : SlabHeap) (n : Word) : ℕ :=
  if n < h.zoneLimit then (zoneindex n).1.toNat else (WIDTH_ALIGN n CONFIG_MM_PAGE_SIZE).toNat

/-- The length of a slot for messages of `n` bytes: they are rounded up to words, of which
16 bits are kept, and a header is added. -/
def slotLength (n : ℕ) : ℕ := (n+3)/4*4%65536+4

/-- A message queue that has just been constructed. -/
structure Created {σ κ θ : Type} (q : MessageQueue) (w : World σ κ θ) : Prop where
  queue : w.queue = q
  place : ∀ c, w.place c = .idle
  deque : w.deque = []
  receipts : w.receipts = []
  failures : w.failures = []

section pool

variable {fuel : ℕ} {down : Bool} {msg_size pool_size pool : Word} {maxMsgs : BitVec 16}
variable {q : MessageQueue} {h h' : SlabHeap} {v : HeapBlocks.World}

theorem allocate_some
    (hrun : (allocate fuel down msg_size pool_size).run h = some ((pool,maxMsgs,q),h')) :
    (kmalloc fuel down msg_size).run h = some (pool,h') ∧
      maxMsgs = maxMsgsOf (msgSizeOf msg_size) pool_size ∧ ∃ payload, q =
        threadFree ⟨fun _ => none,payload,msgSizeOf msg_size,0,none,none,none⟩ maxMsgs.toNat := by
  simp only [allocate,run_bind,Option.bind_eq_some_iff,run_get,run_pure,Option.some.injEq,
    Prod.mk.injEq] at hrun
  obtain ⟨⟨p,h₁⟩,hk,-,⟨-,rfl⟩,⟨rfl,rfl,rfl⟩,rfl⟩ := hrun
  exact ⟨hk,rfl,_,rfl⟩

theorem toNat_msgSizeOf (hlt : msg_size.toNat+3 < 2^32) :
    (msgSizeOf msg_size).toNat = (msg_size.toNat+3)/4*4%65536 := by
  have hmask : CONFIG_ALIGN_SIZE-1 = WordMasks.mask 32 2 := by decide
  have hsub : msg_size+CONFIG_ALIGN_SIZE-1 = msg_size+3 := by
    unfold CONFIG_ALIGN_SIZE
    bv_omega
  unfold msgSizeOf WIDTH_ALIGN
  rw [BitVec.toNat_setWidth,hmask,WordMasks.toNat_and_not_mask,hsub,BitVec.toNat_add]
  rw [show (3 : Word).toNat = 3 from rfl,Nat.mod_eq_of_lt hlt]
  simp only [Nat.reducePow]

theorem toNat_maxMsgsOf (msgSize : BitVec 16) :
    (maxMsgsOf msgSize pool_size).toNat = pool_size.toNat/(msgSize.toNat+4)%65536 := by
  rw [maxMsgsOf,BitVec.toNat_setWidth,BitVec.toNat_udiv,toNat_stride]

/-- The block is shorter than two slots. -/
theorem Config.usable_lt (c : Config) (hle : msg_size.toNat ≤ 65532) :
    c.usable msg_size < 2*slotLength msg_size.toNat := by
  have hzones := c.zones
  unfold Config.usable slotLength
  split_ifs with hlimit
  · have := zoneindex_lt (n := msg_size) (by omega)
    omega
  · rw [toNat_pageAlign]
    omega

/-- Of the numbers of slots only zero and one fit. -/
theorem slots_fit_iff {n m length : ℕ} (hlength : m ≤ 65532 → length < 2*slotLength m) :
    n = 0 ∨ m ≤ slotLength m-4 ∧ n*slotLength m ≤ length ↔
      n = 0 ∨ n = 1 ∧ m ≤ 65532 ∧ slotLength m ≤ length := by
  have hroom : m ≤ slotLength m-4 ↔ m ≤ 65532 := by
    unfold slotLength
    omega
  rw [hroom]
  refine or_congr_right' fun hn => ⟨fun ⟨hm,hfit⟩ => ?_,?_⟩
  · have hone : n = 1 := by
      by_contra h
      have := Nat.mul_le_mul_right (slotLength m) (show 2 ≤ n by omega)
      have := hlength hm
      omega
    exact ⟨hone,hm,by rwa [hone,Nat.one_mul] at hfit⟩
  · rintro ⟨rfl,hm,hfit⟩
    exact ⟨hm,by rwa [Nat.one_mul]⟩

/-- A request that was granted does not wrap around when it is rounded up to words. -/
theorem Config.lt_of_le_usable (c : Config) (hfits : msg_size.toNat ≤ c.usable msg_size) :
    msg_size.toNat+3 < 2^32 := by
  have hzones := c.zones
  unfold Config.usable at hfits
  split_ifs at hfits with hlimit
  · omega
  · rw [toNat_pageAlign] at hfits
    omega

theorem Created.start {σ κ θ : Type} {w : World σ κ θ} {payload : ℕ → List (BitVec 8)}
    {msgSize maxMsgs : BitVec 16}
    (hw : Created (threadFree ⟨fun _ => none,payload,msgSize,0,none,none,none⟩ maxMsgs.toNat) w) :
    Start (List.range maxMsgs.toNat).reverse w ∧ w.queue.msgSize = msgSize := by
  obtain ⟨hchain,hhead,htail,hentry,hsize⟩ := threadFree_spec
    (q := ⟨fun _ => none,payload,msgSize,0,none,none,none⟩) rfl maxMsgs.toNat
  refine ⟨⟨List.nodup_reverse.mpr List.nodup_range,?_,?_,?_,?_,?_,hw.place,hw.deque,hw.receipts,
    hw.failures⟩,?_⟩
  · rw [List.length_reverse,List.length_range]
    exact maxMsgs.isLt
  · rw [hw.queue]
    exact hchain
  · rw [hw.queue]
    exact hhead
  · rw [hw.queue]
    exact htail
  · rw [hw.queue]
    exact hentry
  · rw [hw.queue]
    exact hsize

variable {σ ο κ θ : Type} [DecidableEq κ] [DecidableEq θ] [ListFamily σ (ListId ο) θ]

/-- The slots of a message queue are inside the block that its constructor has allocated and
apart from each other, and all payload copies are inside the block, exactly when there is no
slot, or a single one that fits into the block. -/
theorem message_pool_inside_iff {w : World σ κ θ} {o : ο} (H : Reached fuel down v)
    (hrun : (allocate fuel down msg_size pool_size).run v.heap = some ((pool,maxMsgs,q),h'))
    (hpool : pool ≠ 0) (hw : Created q w) :
    SlotsInside msg_size pool w.queue.msgSize maxMsgs.toNat (usable h' pool) ∧
      (∀ as, AllSteps (step o) (CopiesInside pool w.queue.msgSize (usable h' pool)) w as) ↔
    pool_size.toNat/slotLength msg_size.toNat%65536 = 0 ∨
      pool_size.toNat/slotLength msg_size.toNat%65536 = 1 ∧ msg_size.toNat ≤ 65532 ∧
        slotLength msg_size.toNat ≤ rounded v.heap msg_size := by
  obtain ⟨hk,rfl,payload,rfl⟩ := allocate_some hrun
  obtain ⟨c,husable,hfits,-,hlt,hlimit⟩ := H.kmalloc_usable hk hpool
  obtain ⟨hstart,hsize⟩ := hw.start
  have hrounded : rounded v.heap msg_size = c.usable msg_size := by
    simp only [rounded,Config.usable,BitVec.lt_def,hlimit]
  have hlength : slotLength msg_size.toNat = (msgSizeOf msg_size).toNat+4 := by
    rw [toNat_msgSizeOf (Config.lt_of_le_usable c hfits)]
    rfl
  rw [husable,hsize,hrounded,← slots_fit_iff (Config.usable_lt c),hlength,Nat.add_sub_cancel,
    ← toNat_maxMsgsOf,← slotsInside_iff hlt]
  exact and_iff_left_of_imp fun S as => copiesInside S hsize hstart as

end pool

/-- A message queue that no call has used. -/
def unused (q : MessageQueue) : World (Sequences (ListId (Fin 1)) (Fin 2)) (Fin 1) (Fin 2) where
  kernel := Scheduler.startedKernel ![254,20]
  tick := 0
  queue := q
  place := fun _ => .idle
  deque := []
  linked := 0
  receipts := []
  failures := []

theorem allocate_smallHeap (pool_size : Word) (n : BitVec 16)
    (h : pool_size = 8 ∧ n = 1 ∨ pool_size = 64 ∧ n = 8) :
    ∃ q h', (allocate 50 true 4 pool_size).run smallHeap = some ((0x101028,n,q),h') ∧
      q.msgSize = 4 ∧ usable h' 0x101028 = 8 := by
  have hfacts : ((allocate 50 true 4 pool_size).run smallHeap).map
      (fun r => (r.1.1,r.1.2.1,r.1.2.2.msgSize,usable r.2 0x101028)) = some (0x101028,n,4,8) := by
    obtain ⟨rfl,rfl⟩ | ⟨rfl,rfl⟩ := h
    · decide +kernel
    · decide +kernel
  obtain ⟨⟨⟨pool,maxMsgs,q⟩,h'⟩,hrun,heq⟩ := Option.map_eq_some_iff.mp hfacts
  simp only [Prod.mk.injEq] at heq
  obtain ⟨rfl,rfl,hsize,husable⟩ := heq
  exact ⟨q,h',hrun,hsize,husable⟩

/-- A message of four bytes and its header fit into the smallest chunk. -/
theorem message_pool_inside_iff_single : ∃ q h',
    (allocate 50 true 4 8).run smallHeap = some ((0x101028,1,q),h') ∧
      SlotsInside 4 0x101028 q.msgSize 1 (usable h' 0x101028) ∧
      ∀ as, AllSteps (step 0) (CopiesInside 0x101028 q.msgSize (usable h' 0x101028)) (unused q)
        as := by
  obtain ⟨q,h',hrun,-,-⟩ := allocate_smallHeap 8 1 (.inl ⟨rfl,rfl⟩)
  have hcreated : Created q (unused q) := ⟨rfl,fun _ => rfl,rfl,rfl,rfl⟩
  exact ⟨q,h',hrun,(message_pool_inside_iff reached_smallHeap hrun (by decide) hcreated).mpr
    (.inr ⟨by decide,by decide,by decide +kernel⟩)⟩

/-- Of eight slots for messages of four bytes only the first is inside the block. -/
theorem second_slot_outside : ∃ q h',
    (allocate 50 true 4 64).run smallHeap = some ((0x101028,8,q),h') ∧ q.msgSize = 4 ∧
      usable h' 0x101028 = 8 ∧ ¬slot 0x101028 4 1 ⊆ span 0x101028 8 := by
  obtain ⟨q,h',hrun,hsize,husable⟩ := allocate_smallHeap 64 8 (.inr ⟨rfl,rfl⟩)
  refine ⟨q,h',hrun,hsize,husable,fun h => ?_⟩
  have hend := (slot_subset_iff (by decide) (by decide)).mp h
  exact absurd hend (by decide)

end MessageDeque

end CosKernel
