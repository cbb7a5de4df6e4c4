import CosKernel.IpcObjects
import CosKernel.ReadyQueues
import CosKernel.RedBlackShape

/-!
# What an event delivers

`Event::send` decides for every waiting thread what `Event::recv` would have decided had it
been called at that moment. The waiting threads are in a list of coslib, which is changed
while it is walked. A thread that is woken may enter an empty ready list with its old link
to the next waiting thread; this does not disturb the walk, since a link is read before its
node is moved.
-/
namespace CosKernel
open IntrusiveList RedBlackHeap RedBlackZipper ColorTree

variable {ο θ : Type}

namespace Event

section reception

variable {σ : Type} [DecidableEq θ] [ListFamily σ (ListId ο) θ]

/-- Every thread in turn calls `recv` with its own interest and without waiting. The result
is what each of them receives, which ones go away empty-handed, and the final `set_`. -/
def receiveAll (k : Kernel σ θ) (o : ο) :
    List θ → BitVec 32 → Option (List (θ × BitVec 32) × List θ × BitVec 32)
  | [],set_ => some ([],[],set_)
  | t::ts,set_ => do
      let (_,set',result) ← recv k o set_ t (k.thread t).eventSet (k.thread t).eventInfo 0
      let (served,left,last) ← receiveAll k o ts set'
      match result with
      | some (_,some v) => some ((t,v)::served,left,last)
      | _ => some (served,t::left,last)

/-- A thread that waits in `recv`. -/
structure Waits (x : Thread) : Prop where
  stat : x.stat = .suspend
  error : x.error = ERR_OK
  interest : x.eventSet ≠ 0
  flags : ¬(x.eventInfo &&& FLAG_AND = 0 ∧ x.eventInfo &&& FLAG_OR = 0)

/-- The set after a thread with the interest of `x` has received its events. -/
def cleared (set_ : BitVec 32) (x : Thread) : BitVec 32 :=
  if x.eventInfo &&& FLAG_CLEAR ≠ 0 then set_ &&& ~~~x.eventSet else set_

variable {k : Kernel σ θ} {o : ο} {set_ : BitVec 32} {t : θ} {ts : List θ}

/-- The branch of `recv` that does not wait. -/
theorem recv_now (H : Waits (k.thread t)) :
    recv k o set_ t (k.thread t).eventSet (k.thread t).eventInfo 0 =
      if satisfied set_ (k.thread t).eventSet (k.thread t).eventInfo then
        some (k.setError t ERR_OK,cleared set_ (k.thread t),
          some (ERR_OK,some (set_ &&& (k.thread t).eventSet)))
      else some ((k.setError t ERR_OK).setError t (-ERR_TIMEOUT),set_,some (-ERR_TIMEOUT,none)) := by
  rw [recv,if_neg H.interest]
  simp only [H.flags,if_false,if_true]
  rfl

/-- A satisfied thread receives the events of its interest, and any other one nothing. -/
theorem receiveAll_cons (H : Waits (k.thread t)) : receiveAll k o (t::ts) set_ =
    if satisfied set_ (k.thread t).eventSet (k.thread t).eventInfo then
      (receiveAll k o ts (cleared set_ (k.thread t))).map fun r =>
        ((t,set_ &&& (k.thread t).eventSet)::r.1,r.2.1,r.2.2)
    else (receiveAll k o ts set_).map fun r => (r.1,t::r.2.1,r.2.2) := by
  rw [receiveAll,recv_now H]
  split_ifs with hs
  · cases hr : receiveAll k o ts (cleared set_ (k.thread t)) <;> simp [hr]
  · cases hr : receiveAll k o ts set_ <;> simp [hr]

/-- Only the interests of the threads matter. -/
theorem receiveAll_congr {k' : Kernel σ θ} (hw : ∀ t ∈ ts, Waits (k.thread t))
    (h : ∀ t ∈ ts, k'.thread t = k.thread t) : receiveAll k' o ts set_ = receiveAll k o ts set_ := by
  induction ts generalizing set_ with
  | nil => rfl
  | cons t ts ih =>
      have ht : k'.thread t = k.thread t := h t (by simp)
      have hts : ∀ set_, receiveAll k' o ts set_ = receiveAll k o ts set_ := fun set_ =>
        ih (fun u hu => hw u (by simp [hu])) fun u hu => h u (by simp [hu])
      rw [receiveAll_cons (hw t (by simp)),receiveAll_cons (by rw [ht]; exact hw t (by simp)),ht]
      simp only [hts]

/-- What `send` stores for a thread whose interest is satisfied is what `recv` returns. -/
theorem stored_eq (x : Thread) (h : satisfied set_ x.eventSet x.eventInfo = true) :
    (if x.eventInfo &&& FLAG_AND = 0 then x.eventSet &&& set_ else x.eventSet) =
      set_ &&& x.eventSet := by
  by_cases hand : x.eventInfo &&& FLAG_AND = 0
  · rw [if_pos hand]
    exact BitVec.and_comm ..
  · rw [if_neg hand]
    rw [satisfied,if_pos hand] at h
    exact (of_decide_eq_true h).symm

/-- Clearing what arrived clears the whole interest. -/
theorem clear_stored (set_ s : BitVec 32) : set_ &&& ~~~(set_ &&& s) = set_ &&& ~~~s := by
  apply BitVec.eq_of_getLsbD_eq
  intro i hi
  simp only [BitVec.getLsbD_and,BitVec.getLsbD_not,hi]
  cases set_.getLsbD i <;> simp

end reception

end Event

/-! The scheduler's side of waking a thread. -/

/-- The scheduler can take threads of `ws` in: the priorities with ready threads are in a tree
with a black root, whatever its balance is, and no ready list ends in a thread of `ws`. -/
structure Schedulable (k : PointerKernel ο θ) (ws : List θ) : Prop where
  values : ∀ t, (k.lists.node t).value = t
  running : k.currentThread ≠ none
  busy : ∃ p, (k.lists.list (.ready p)).pHead ≠ none
  tails : ∀ p, (k.lists.list (.ready p)).pHead ≠ none →
    ∃ x, (k.lists.list (.ready p)).pTail = some x ∧ x ∉ ws
  obj : ∀ p, k.priorityTree.obj p = p
  tree : ∃ t, Planted k.priorityTree t ∧ t.rootColor = .black ∧
    (∀ p, p ∈ t.toList ↔ (k.lists.list (.ready p)).pHead ≠ none) ∧
    ∀ p, p ∉ t.toList → Unlinked k.priorityTree p

namespace Schedulable

variable [DecidableEq ο] [DecidableEq θ] {k : PointerKernel ο θ} {ws : List θ} {t : θ}
variable {s : Store (ListId ο) θ θ}

omit [DecidableEq ο] [DecidableEq θ] in
theorem mono {ws' : List θ} (H : Schedulable k ws) (h : ∀ t ∈ ws', t ∈ ws) :
    Schedulable k ws' := by
  refine ⟨H.values,H.running,H.busy,fun p hp => ?_,H.obj,H.tree⟩
  obtain ⟨x,hx,hw⟩ := H.tails p hp
  exact ⟨x,hx,fun hmem => hw (h x hmem)⟩

omit [DecidableEq ο] [DecidableEq θ] in
/-- Only the ready lists and the values of the nodes matter. -/
theorem congr {k' : PointerKernel ο θ} (H : Schedulable k ws)
    (hv : ∀ t, (k'.lists.node t).value = (k.lists.node t).value)
    (hl : ∀ p, k'.lists.list (.ready p) = k.lists.list (.ready p))
    (ht : k'.priorityTree = k.priorityTree) (hc : k'.currentThread = k.currentThread) :
    Schedulable k' ws := by
  obtain ⟨h₁,h₂,h₃,h₄,h₅,h₆⟩ := H
  refine ⟨fun t => (hv t).trans (h₁ t),hc ▸ h₂,?_,?_,ht ▸ h₅,?_⟩
  · simpa only [hl] using h₃
  · simpa only [hl] using h₄
  · simpa only [hl,ht] using h₆

omit [DecidableEq θ] in
/-- A thread enters an empty ready list. -/
theorem enter (H : Schedulable k ws) (ht : t ∉ ws) {p : Priority}
    (hp : (k.lists.list (.ready p)).pHead = none) :
    ∃ h, (k.priorityTree.insert (enough Priority) p).map Prod.fst = some h ∧
      Schedulable {k with priorityTree := h, lists := k.lists.setList (.ready p) ⟨some t,some t⟩}
        ws := by
  obtain ⟨tree,hplant,hroot,hmem,hfree⟩ := H.tree
  have hout : p ∉ tree.toList := fun hin => (hmem p).mp hin hp
  have hfuel : 2*tree.toList.length < enough Priority := by
    have := hplant.nodup.length_le_card
    unfold enough
    omega
  obtain ⟨h,tree',e,hplant',hroot',hperm,K⟩ := hplant.insert_shape hfuel hroot hout (hfree p hout)
  have hlist : ∀ q, q ≠ p → (k.lists.setList (.ready p) ⟨some t,some t⟩).list (.ready q) =
      k.lists.list (.ready q) := fun q hq => Store.setList_other _ _ (by simpa using hq)
  refine ⟨h,by rw [e]; rfl,H.values,H.running,⟨p,by simp⟩,fun q hq => ?_,?_,?_⟩
  · by_cases hqp : q = p
    · subst hqp
      exact ⟨t,by simp,ht⟩
    · simp only [hlist q hqp] at hq ⊢
      exact H.tails q hq
  · simpa only [K.obj] using H.obj
  · refine ⟨tree',hplant',hroot',fun q => ?_,fun q hq => ?_⟩
    · rw [hperm.mem_iff]
      by_cases hqp : q = p
      · subst hqp
        simp
      · simpa [hlist q hqp,hqp] using hmem q
    · have hq' : q ∉ tree.toList := fun hin => hq (hperm.mem_iff.mpr (by simp [hin]))
      obtain ⟨⟨-,hpar,hlink⟩,-⟩ := K.same q hq
      obtain ⟨hpar',hlink'⟩ := hfree q hq'
      exact ⟨hpar.trans hpar',fun s => by rw [hlink]; exact hlink' s⟩

/-- A thread is appended to a ready list that is not empty. -/
theorem append (H : Schedulable k ws) (ht : t ∉ ws) {p : Priority} {x : θ}
    (hp : (k.lists.list (.ready p)).pHead ≠ none) :
    Schedulable {k with lists := appended k.lists (.ready p) x t} ws := by
  have hlist : ∀ q, q ≠ p → (appended k.lists (.ready p) x t).list (.ready q) =
      k.lists.list (.ready q) := fun q hq => by
    simp [appended,Store.setList,hq]
  have hself : (appended k.lists (.ready p) x t).list (.ready p) =
      {k.lists.list (.ready p) with pTail := some t} := by simp [appended]
  have hhead : ∀ q, ((appended k.lists (.ready p) x t).list (.ready q)).pHead =
      (k.lists.list (.ready q)).pHead := by
    intro q
    by_cases hqp : q = p
    · subst hqp
      rw [hself]
    · rw [hlist q hqp]
  refine ⟨fun u => ?_,H.running,⟨p,by rw [hhead]; exact hp⟩,fun q hq => ?_,H.obj,?_⟩
  · have := H.values u
    simpa [appended] using this
  · by_cases hqp : q = p
    · subst hqp
      exact ⟨t,by rw [hself],ht⟩
    · simp only [hlist q hqp] at hq ⊢
      exact H.tails q hq
  · obtain ⟨tree,h₁,h₂,h₃,h₄⟩ := H.tree
    exact ⟨tree,h₁,h₂,fun q => by rw [hhead]; exact h₃ q,h₄⟩

/-- A suspended thread is resumed. Of the nodes only its own one and those at the ends of ready
lists change, and of the lists only a ready list. -/
theorem resume (H : Schedulable k (t::ws)) (ht : t ∉ ws) (hs : (k.thread t).stat = .suspend) :
    ∃ k', k.resume t = some (k',ERR_OK) ∧ Schedulable k' ws ∧
      k'.thread = Function.update k.thread t {k.thread t with stat := .ready, timerActive := false} ∧
      (∀ u ∈ ws, k'.lists.node u = k.lists.node u) ∧
      ∀ l, (∀ p, l ≠ .ready p) → k'.lists.list l = k.lists.list l := by
  set p := (k.thread t).currentPriority with hp
  set g := fun x : Thread => {x with stat := .ready, timerActive := false} with hg
  have hk : ((k.timerStop t).modify t fun x => {x with stat := .ready}) = k.modify t g := by
    simp [Kernel.timerStop,hg]
  have hprio : ((k.modify t g).thread t).currentPriority = p := by
    rw [Kernel.modify_thread_self]
  have Hg : Schedulable (k.modify t g) ws :=
    (H.mono fun u hu => by simp [hu]).congr (fun _ => rfl) (fun _ => rfl) rfl rfl
  have hthread : (k.modify t g).thread =
      Function.update k.thread t {k.thread t with stat := .ready, timerActive := false} := rfl
  unfold Kernel.resume Kernel.insertThread
  simp only [hs,ne_eq,not_true_eq_false,if_false,hk,hprio]
  by_cases hempty : (k.lists.list (.ready p)).pHead = none
  · obtain ⟨h,e,H'⟩ := Hg.enter ht hempty
    have he : ListFamily.empty (k.modify t g).lists (ListId.ready p) = true := by
      simp [ListFamily.empty,Store.empty,Kernel.modify,hempty]
    have hpush : ListFamily.pushBack (k.modify t g).lists (ListId.ready p) t =
        some (k.lists.setList (.ready p) ⟨some t,some t⟩) := pushBack_of_empty hempty
    refine ⟨_,by simp only [he,if_true,e,hpush]; rfl,H',hthread,fun _ _ => rfl,fun l hl => ?_⟩
    exact Store.setList_other _ _ (hl p)
  · obtain ⟨x,hx,hout⟩ := H.tails p hempty
    simp only [List.mem_cons,not_or] at hout
    have he : ListFamily.empty (k.modify t g).lists (ListId.ready p) = false := by
      simpa [ListFamily.empty,Store.empty,Kernel.modify,Option.isSome_iff_ne_none] using hempty
    have hpush : ListFamily.pushBack (k.modify t g).lists (ListId.ready p) t =
        some (appended k.lists (.ready p) x t) := by
      change k.lists.pushBack (.ready p) t = _
      simp [Store.pushBack,hempty,hx,hout.1,appended]
    refine ⟨_,by simp only [he,hpush]; rfl,Hg.append ht hempty,hthread,fun u hu => ?_,fun l hl => ?_⟩
    · refine appended_node_of_ne ?_ ?_
      · rintro rfl
        exact hout.2 hu
      · rintro rfl
        exact ht hu
    · exact Store.setList_other _ _ (hl p)

theorem process (H : Schedulable k ws) : ∃ c, k.process = some {k with currentThread := c} := by
  obtain ⟨c,hc⟩ := Option.ne_none_iff_exists'.mp H.running
  have hk : k = {k with currentThread := some c} := by rw [← hc]
  obtain ⟨tree,hplant,-,hmem,-⟩ := H.tree
  obtain ⟨q,hq⟩ := H.busy
  have hfuel : tree.toList.length < enough Priority := by
    have := hplant.nodup.length_le_card
    unfold enough
    omega
  have hmin := (hplant.sub.extremes hfuel hplant.root).1
  obtain ⟨p,ps,hps⟩ := List.exists_cons_of_ne_nil (List.ne_nil_of_mem ((hmem q).mpr hq))
  obtain ⟨u,hu⟩ := Option.ne_none_iff_exists'.mp ((hmem p).mp (by simp [hps]))
  have hfront : ListFamily.front k.lists (ListId.ready p) = some u := by
    simp [ListFamily.front,Store.front,hu,H.values]
  have hnext : k.nextThread = some (some u) := by
    simp [Kernel.nextThread,Kernel.firstReady,hmin,hps,H.obj,hfront]
  by_cases hl : k.lockNest = 0
  · by_cases huc : u = c
    · exact ⟨some c,by rw [← hk]; simp [Kernel.process,hl,hnext,hc,huc]⟩
    · exact ⟨some u,by simp [Kernel.process,hl,hnext,hc,huc]⟩
  · exact ⟨some c,by rw [← hk]; simp [Kernel.process,hl]⟩

end Schedulable

namespace Event

variable [DecidableEq ο] [DecidableEq θ] {k : PointerKernel ο θ} {o : ο} {set_ : BitVec 32}
variable {ws us vs : List θ} {t : θ}

/-- The suspend list of the event holds the waiting threads `ws`. -/
structure Waiting (k : PointerKernel ο θ) (o : ο) (ws : List θ) : Prop where
  chained : Chained k.lists (.suspend o) ws
  nodup : ws.Nodup
  waits : ∀ t ∈ ws, Waits (k.thread t)

/-- The thread `t` is taken out of the suspend list and resumed with the events `v`. -/
theorem wake (H : Waiting k o (vs++t::us)) (S : Schedulable k (vs++t::us)) (v : BitVec 32) :
    ∃ s k', ListFamily.erase k.lists (ListId.suspend o) t = some s ∧
      Kernel.resume {k.modify t (fun x => {x with eventSet := v}) with lists := s} t =
        some (k',ERR_OK) ∧
      Waiting k' o (vs++us) ∧ Schedulable k' (vs++us) ∧
      k'.thread = Function.update k.thread t
        {k.thread t with eventSet := v, stat := .ready, timerActive := false} := by
  have hperm : (vs++t::us).Perm (t::(vs++us)) := List.perm_middle
  obtain ⟨hout,hnodup⟩ := List.nodup_cons.mp (hperm.nodup_iff.mp H.nodup)
  have hrest : (vs++t::us).erase t = vs++us := by
    have hvs : t ∉ vs := fun h => hout (by simp [h])
    rw [List.erase_append_right _ hvs,List.erase_cons_head]
  obtain ⟨s,hs,hchain,hlist,-,hvalue⟩ := H.chained.erase H.nodup (p := t) (by simp)
  rw [hrest] at hchain
  have S₁ : Schedulable {k.modify t (fun x => {x with eventSet := v}) with lists := s}
      (t::(vs++us)) :=
    (S.mono fun u hu => hperm.mem_iff.mpr hu).congr hvalue (fun p => hlist _ (by simp)) rfl rfl
  have hstat : ((k.modify t fun x => {x with eventSet := v}).thread t).stat = .suspend := by
    rw [Kernel.modify_thread_self]
    exact (H.waits t (by simp)).stat
  obtain ⟨k',hr,S',hthread,hnode,hlists⟩ := S₁.resume hout hstat
  have hupdate : k'.thread = Function.update k.thread t
      {k.thread t with eventSet := v, stat := .ready, timerActive := false} := by
    rw [hthread]
    simp [Kernel.modify]
  refine ⟨s,k',hs,hr,⟨?_,hnodup,fun u hu => ?_⟩,S',hupdate⟩
  · exact hchain.frame (hlists _ (by simp)) hnode
  · have hne : u ≠ t := by
      rintro rfl
      exact hout hu
    rw [hupdate,Function.update_of_ne hne]
    exact H.waits u (hperm.mem_iff.mpr (by simp [hu]))

/-- The link of a waiting thread leads to the next one. -/
theorem Waiting.next (H : Waiting k o (vs++t::us)) :
    ListFamily.next k.lists (ListId.suspend o) t = us.head? := by
  have hpath := H.chained.path
  clear H
  induction vs with
  | nil => exact hpath.1
  | cons v vs ih => exact ih hpath.2

/-- The rest of the walk of `send`, when the threads `vs` have been passed by. -/
theorem sendLoop_spec (vs : List θ) (set_ : BitVec 32) {fuel : ℕ} (hfuel : us.length ≤ fuel) (need : Bool)
    (H : Waiting k o (vs++us)) (S : Schedulable k (vs++us)) :
    ∃ k' set' need' served left, sendLoop o fuel k set_ us.head? need = some (k',set',need') ∧
      receiveAll k o us set_ = some (served,left,set') ∧
      Waiting k' o (vs++left) ∧ Schedulable k' (vs++left) ∧
      (∀ u, u ∉ served.map Prod.fst → k'.thread u = k.thread u) ∧
      (∀ u ∈ served.map Prod.fst, u ∈ us) ∧
      ∀ r ∈ served, k'.thread r.1 =
        {k.thread r.1 with eventSet := r.2, stat := .ready, timerActive := false} := by
  induction us generalizing fuel k set_ vs need with
  | nil =>
      refine ⟨k,set_,need,[],[],?_,rfl,H,S,fun _ _ => rfl,by simp,by simp⟩
      cases fuel <;> rfl
  | cons t us ih =>
      obtain ⟨fuel,rfl⟩ : ∃ n, fuel = n+1 := ⟨fuel-1,by simp at hfuel; omega⟩
      have hfuel' : us.length ≤ fuel := by simpa using hfuel
      have hwait := H.waits t (by simp)
      have hnodup := (List.nodup_append.mp H.nodup).2.1
      have hnot : t ∉ us := (List.nodup_cons.mp hnodup).1
      rw [receiveAll_cons hwait]
      simp only [List.head?_cons,sendLoop,H.next]
      by_cases hsat : satisfied set_ (k.thread t).eventSet (k.thread t).eventInfo = true
      · -- the thread leaves the list, and the walk goes on without it
        obtain ⟨s,k₁,hs,hr,H₁,S₁,hthread⟩ := wake H S (set_ &&& (k.thread t).eventSet)
        have hkept : ∀ u ∈ us, k₁.thread u = k.thread u := fun u hu => by
          rw [hthread,Function.update_of_ne]
          rintro rfl
          exact hnot hu
        obtain ⟨k',set',need',served,left,hloop,hrecv,H',S',hsame,hsub,hserved⟩ :=
          ih vs (cleared set_ (k.thread t)) hfuel' true H₁ S₁
        rw [receiveAll_congr (fun u hu => H.waits u (by simp [hu])) hkept] at hrecv
        have hone : t ∉ served.map Prod.fst := fun h => hnot (hsub t h)
        refine ⟨k',set',need',(t,set_ &&& (k.thread t).eventSet)::served,left,?_,?_,H',S',?_,?_,?_⟩
        · have hstore : (if (k.thread t).eventInfo &&& FLAG_AND = 0 then
              k.modify t fun x => {x with eventSet := x.eventSet &&& set_} else k) =
              k.modify t fun x => {x with eventSet := set_ &&& (k.thread t).eventSet} := by
            have := stored_eq (k.thread t) hsat
            split_ifs at this ⊢ with hand
            · simp only [Kernel.modify,this]
            · simp only [Kernel.modify,← this,Function.update_eq_self]
          have hclear : (if (k.thread t).eventInfo &&& FLAG_CLEAR ≠ 0 then
              set_ &&& ~~~(set_ &&& (k.thread t).eventSet) else set_) =
              cleared set_ (k.thread t) := by
            unfold cleared
            rw [clear_stored]
          simp only [hsat,if_true,hstore,Kernel.modify_thread_self,hclear]
          change ((ListFamily.erase k.lists (ListId.suspend o) t).bind fun lists => _) = _
          rw [hs,Option.bind_some]
          change (Kernel.resume {k.modify t (fun x =>
            {x with eventSet := set_ &&& (k.thread t).eventSet}) with lists := s} t).bind _ = _
          rw [hr,Option.bind_some]
          exact hloop
        · rw [if_pos hsat,hrecv]
          rfl
        · intro u hu
          simp only [List.map_cons,List.mem_cons,not_or] at hu
          rw [hsame u hu.2,hthread,Function.update_of_ne hu.1]
        · intro u hu
          rcases List.mem_cons.mp hu with rfl | hu
          · simp
          · simp [hsub u hu]
        · intro r hr
          rcases List.mem_cons.mp hr with rfl | hr
          · rw [hsame t hone,hthread,Function.update_self]
          · rw [hserved r hr,hkept r.1 (hsub r.1 (List.mem_map_of_mem hr))]
      · have happend : vs++t::us = (vs++[t])++us := by simp
        rw [happend] at H S
        obtain ⟨k',set',need',served,left,hloop,hrecv,H',S',hsame,hsub,hserved⟩ :=
          ih (vs++[t]) set_ hfuel' need H S
        refine ⟨k',set',need',served,t::left,?_,?_,by simpa using H',by simpa using S',hsame,?_,hserved⟩
        · rw [if_neg hsat]
          exact hloop
        · rw [if_neg hsat,hrecv]
          rfl
        · exact fun u hu => by simp [hsub u hu]

/-- `send` wakes the threads that would have received something and stores what that is. The
others keep waiting in their order, and the events that are left are the same. -/
theorem send_is_reception (k : PointerKernel ο θ) (o : ο) (set_ set : BitVec 32) (ws : List θ)
    (hset : set ≠ 0) (H : Waiting k o ws) (S : Schedulable k ws) {fuel : ℕ}
    (hfuel : ws.length ≤ fuel) :
    ∃ k' set' served left, send fuel k o set_ set = some (k',set',ERR_OK) ∧
      receiveAll k o ws (set_ ||| set) = some (served,left,set') ∧
      Waiting k' o left ∧ (∀ t, t ∉ served.map Prod.fst → k'.thread t = k.thread t) ∧
      ∀ r ∈ served, (k'.thread r.1).stat = .ready ∧ recvReturn k' r.1 = (ERR_OK,some r.2) := by
  obtain ⟨k₁,set',need,served,left,hloop,hrecv,H₁,S₁,hsame,hsub,hserved⟩ :=
    sendLoop_spec [] (set_ ||| set) hfuel false H S
  obtain ⟨c,hprocess⟩ := S₁.process
  have hbegin : ListFamily.begin k.lists (ListId.suspend o) = ws.head? := H.chained.head
  have herror : ∀ r ∈ served, (k.thread r.1).error = ERR_OK := fun r hr =>
    (H.waits r.1 (hsub r.1 (List.mem_map_of_mem hr))).error
  cases need with
  | false =>
      refine ⟨k₁,set',served,left,?_,hrecv,H₁,hsame,fun r hr => ?_⟩
      · rw [send,if_neg hset,hbegin,hloop]
        rfl
      · simp [hserved r hr,recvReturn,herror r hr]
  | true =>
      refine ⟨{k₁ with currentThread := c},set',served,left,?_,hrecv,
        ⟨H₁.chained,H₁.nodup,H₁.waits⟩,hsame,fun r hr => ?_⟩
      · rw [send,if_neg hset,hbegin,hloop]
        simp [hprocess]
      · simp [hserved r hr,recvReturn,herror r hr]

/-- Thread 0 runs with priority 20. Threads 1, 2 and 3 wait: 1 for both of the events 1 and 2,
2 for one of the events 2 and 4, which is then cleared, and 3 for the event 4. The lists are
as `push_back` has built them. -/
def threeWaiting : PointerKernel Unit (Fin 4) where
  lists :=
    { node := ![⟨0,none,none⟩,⟨1,some 2,none⟩,⟨2,some 3,some 1⟩,⟨3,none,some 2⟩]
      list := fun l =>
        if l = .suspend () then ⟨some 1,some 3⟩
        else if l = .ready 20 then ⟨some 0,some 0⟩
        else ⟨none,none⟩ }
  priorityTree :=
    { key := fun | .nil => -1 | .node p => p.val
      color := fun | .nil => .black | .node p => if p = 20 then .black else .red
      parent := fun _ => none
      link := fun x _ => match x with | .nil => none | .node _ => some .nil
      tree := fun | .nil => false | .node p => decide (p = 20)
      obj := id
      root := some (.node 20) }
  thread := fun t =>
    { stat := if t = 0 then .ready else .suspend
      currentPriority := ![20,10,11,10] t
      initPriority := 20
      initTick := 10
      remainingTick := 10
      error := ERR_OK
      timerActive := false
      timerInitTick := 0
      eventSet := ![0,3,6,4] t
      eventInfo := ![0,FLAG_AND,FLAG_OR ||| FLAG_CLEAR,FLAG_OR] t }
  currentThread := some 0
  lockNest := 0

theorem threeWaiting_waiting : Waiting threeWaiting () [1,2,3] := by
  refine ⟨⟨rfl,fun _ => rfl,?_,?_⟩,by decide,?_⟩
  · refine List.isChain_cons_cons.mpr ⟨⟨rfl,rfl⟩,List.isChain_cons_cons.mpr ⟨⟨rfl,rfl⟩,?_⟩⟩
    exact List.isChain_singleton _
  · simp [threeWaiting]
  · intro t ht
    fin_cases t
    · simp at ht
    · exact ⟨rfl,rfl,by decide,by decide⟩
    · exact ⟨rfl,rfl,by decide,by decide⟩
    · exact ⟨rfl,rfl,by decide,by decide⟩

theorem threeWaiting_head (p : Priority) :
    (threeWaiting.lists.list (.ready p)).pHead ≠ none ↔ p = 20 := by
  by_cases hp : p = 20
  · simp [threeWaiting,hp]
  · simp [threeWaiting,hp]

theorem threeWaiting_schedulable : Schedulable threeWaiting [1,2,3] := by
  refine ⟨by decide,by simp [threeWaiting],⟨20,(threeWaiting_head 20).mpr rfl⟩,?_,fun _ => rfl,
    .node .black .nil 20 .nil,?_,rfl,?_,?_⟩
  · intro p hp
    rw [threeWaiting_head] at hp
    subst hp
    exact ⟨0,rfl,by decide⟩
  · refine ⟨⟨rfl,rfl,rfl,rfl,trivial,trivial⟩,by simp [toList],rfl,?_,rfl,fun _ => rfl⟩
    simp [toList,threeWaiting]
  · intro p
    rw [threeWaiting_head]
    simp [toList]
  · exact fun p _ => ⟨rfl,fun _ => rfl⟩

/-- The event 4 arrives where 1 was already there: thread 2 takes it away from thread 3. -/
theorem send_is_reception_threeWaiting :
    receiveAll threeWaiting () [1,2,3] (1 ||| 4) = some ([(2,4)],[1,3],1) ∧
    ∃ k' set' served left, send 3 threeWaiting () 1 4 = some (k',set',ERR_OK) ∧
      receiveAll threeWaiting () [1,2,3] (1 ||| 4) = some (served,left,set') ∧
      Waiting k' () left ∧ (∀ t, t ∉ served.map Prod.fst → k'.thread t = threeWaiting.thread t) ∧
      ∀ r ∈ served, (k'.thread r.1).stat = .ready ∧ recvReturn k' r.1 = (ERR_OK,some r.2) :=
  ⟨by decide +kernel,send_is_reception threeWaiting () 1 4 [1,2,3] (by decide)
    threeWaiting_waiting threeWaiting_schedulable (by decide)⟩

end Event

end CosKernel
