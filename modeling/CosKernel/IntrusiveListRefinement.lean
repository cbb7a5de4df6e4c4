import CosKernel.IntrusiveList
import CosKernel.TransitionRuns

/-!
# Intrusive lists refine sequences

`pushBack_spec` and `erase_spec` are the two rules by which every later proof
speaks about lists: under `Represents` the pointer operations append and remove
in the sequence of their own list and leave all other sequences alone. The only
precondition beyond membership is that a node pushed into an empty list has a
null `_pNext`, because that branch of `push_back` does not reset it.

The last section runs a family of lists next to its sequences. Along every run
of legal calls the observations agree with the sequences if and only if that
precondition is met at every call.
-/
namespace CosKernel.IntrusiveList
open TransitionRuns

variable {ι ν τ : Type} {s : Store ι ν τ} {f : ι → List ν} {l : ι} {p : ν}

theorem Represents.head_eq_none (h : Represents s f) : (s.list l).pHead = none ↔ f l = [] := by
  rw [(h.chained l).head,List.head?_eq_none_iff]

/-- Removing a head, a tail or an inner node writes different fields. -/
theorem mem_cases {xs : List ν} (hp : p ∈ xs) :
    (∃ ys, xs = p::ys) ∨ (∃ ys t, xs = ys++[t,p]) ∨
      ∃ ys a b zs, xs = ys++a::p::b::zs := by
  obtain ⟨us,vs,rfl⟩ := List.append_of_mem hp
  rcases List.eq_nil_or_concat us with rfl | ⟨ys,a,rfl⟩
  · exact Or.inl ⟨vs,rfl⟩
  · cases vs with
    | nil => exact Or.inr (Or.inl ⟨ys,a,by simp⟩)
    | cons b zs => exact Or.inr (Or.inr ⟨ys,a,b,zs,by simp⟩)

variable [DecidableEq ι]

/-- The lists other than `l` survive a step that keeps their objects and nodes. -/
theorem Represents.update {s' : Store ι ν τ} (h : Represents s f) {ys : List ν}
    (hl : ∀ m, m ≠ l → s'.list m = s.list m)
    (hn : ∀ m, m ≠ l → ∀ a ∈ f m, s'.node a = s.node a)
    (hc : Chained s' l ys) (hd : ys.Nodup) (hx : ∀ m, m ≠ l → ys.Disjoint (f m)) :
    Represents s' (Function.update f l ys) := by
  refine ⟨fun m => ?_,fun m => ?_,fun m k hmk => ?_⟩
  · by_cases hm : m = l
    · subst hm
      simpa using hc
    · rw [Function.update_of_ne hm]
      exact (h.chained m).frame (hl m hm) (hn m hm)
  · by_cases hm : m = l
    · subst hm
      simpa using hd
    · rw [Function.update_of_ne hm]
      exact h.nodup m
  · by_cases hm : m = l
    · subst hm
      rw [Function.update_self,Function.update_of_ne hmk.symm]
      exact hx k hmk.symm
    · by_cases hk : k = l
      · subst hk
        rw [Function.update_self,Function.update_of_ne hm]
        exact List.disjoint_left.mpr fun a ha hb => hx m hm hb ha
      · rw [Function.update_of_ne hm,Function.update_of_ne hk]
        exact h.disjoint m k hmk

variable [DecidableEq ν]

section PushBack

theorem pushBack_of_empty (hl : (s.list l).pHead = none) :
    s.pushBack l p = some (s.setList l ⟨some p,some p⟩) := by
  simp [Store.pushBack,hl]

/-- The store after appending behind the last node `t`. -/
def appended (s : Store ι ν τ) (l : ι) (t p : ν) : Store ι ν τ :=
  (((s.setNext t (some p)).setPrev p (some t)).setNext p none).setList l
    {s.list l with pTail := some p}

theorem pushBack_of_last (h : Chained s l (f l)) {ys : List ν} {t : ν}
    (hf : f l = ys++[t]) (hp : p ∉ f l) : s.pushBack l p = some (appended s l t p) := by
  have hh : (s.list l).pHead ≠ none := by
    rw [h.head,hf]
    cases ys <;> simp
  have ht : (s.list l).pTail = some t := by
    rw [h.tail (by simp [hf]),hf]
    simp
  have htp : t ≠ p := by
    rintro rfl
    exact hp (by simp [hf])
  simp [Store.pushBack,appended,hh,ht,htp]

theorem appended_node_of_ne {t a : ν} (ht : a ≠ t) (hp : a ≠ p) :
    (appended s l t p).node a = s.node a := by
  simp [appended,Store.setNext,Store.setPrev,Function.update_of_ne,ht,hp]

theorem appended_chained (h : Chained s l (f l)) (hd : (f l).Nodup) {ys : List ν} {t : ν}
    (hf : f l = ys++[t]) (hp : p ∉ f l) : Chained (appended s l t p) l (f l++[p]) := by
  have htp : t ≠ p := by
    rintro rfl
    exact hp (by simp [hf])
  have hc := h.links
  rw [hf] at hc hd hp ⊢
  have hkeep : ∀ a ∈ ys, (appended s l t p).node a = s.node a := by
    intro a ha
    refine appended_node_of_ne ?_ ?_
    · rintro rfl
      exact (List.disjoint_of_nodup_append hd) ha (by simp)
    · rintro rfl
      exact hp (by simp [ha])
  refine ⟨?_,fun _ => by simp [appended],?_,?_⟩
  · have := h.head
    rw [hf] at this
    simp only [appended,Store.setList_self,this]
    cases ys <;> simp
  · refine List.isChain_append.mpr ⟨?_,List.isChain_singleton p,?_⟩
    · refine hc.imp_of_mem_imp fun a b ha hb hab => ?_
      obtain ⟨h₁,h₂⟩ := hab
      have hpa : b ≠ p := by
        rintro rfl
        exact hp hb
      have hprev : ((appended s l t p).node b).pPrev = (s.node b).pPrev := by
        simp [appended,Store.setPrev_pPrev,hpa]
      rcases List.mem_append.mp ha with ha | ha
      · exact ⟨by rw [hkeep a ha]; exact h₁,by rw [hprev]; exact h₂⟩
      · obtain rfl : a = t := by simpa using ha
        have hlast := h.last a (by simp [hf])
        simp [hlast] at h₁
    · intro a ha b hb
      obtain rfl : a = t := by simpa using ha.symm
      obtain rfl : b = p := by simpa using hb.symm
      constructor
      · simp [appended,Store.setNext_pNext,htp]
      · simp [appended,Store.setPrev_pPrev]
  · intro a ha
    obtain rfl : a = p := by simpa using ha.symm
    simp [appended,Store.setNext_pNext]

/-- `push_back` appends, provided that an empty list gets a node whose
`_pNext` is null. -/
theorem pushBack_spec (h : Represents s f) (hp : ∀ m, p ∉ f m)
    (hc : f l = [] → (s.node p).pNext = none) :
    ∃ s', s.pushBack l p = some s' ∧ Represents s' (Function.update f l (f l++[p])) ∧
      ∀ a, (s'.node a).value = (s.node a).value := by
  have hnew : ∀ m, m ≠ l → (f l++[p]).Disjoint (f m) := by
    intro m hm a ha hb
    rcases List.mem_append.mp ha with ha | ha
    · exact h.disjoint l m hm.symm ha hb
    · obtain rfl : a = p := by simpa using ha
      exact hp m hb
  have hdup : (f l++[p]).Nodup := by
    rw [List.nodup_append]
    refine ⟨h.nodup l,by simp,?_⟩
    intro a ha b hb hab
    obtain rfl : b = p := by simpa using hb
    exact hp l (hab ▸ ha)
  rcases List.eq_nil_or_concat (f l) with hf | ⟨ys,t,hf⟩
  · refine ⟨_,pushBack_of_empty (h.head_eq_none.mpr hf),?_,fun a => rfl⟩
    refine h.update (fun m hm => by simp [hm]) (fun _ _ _ _ => rfl) ?_ hdup hnew
    rw [hf]
    exact ⟨by simp,fun _ => by simp,List.isChain_singleton p,fun a ha => by
      obtain rfl : a = p := by simpa using ha.symm
      exact hc hf⟩
  · rw [List.concat_eq_append] at hf
    refine ⟨_,pushBack_of_last (h.chained l) hf (hp l),?_,fun a => by simp [appended]⟩
    refine h.update (fun m hm => by simp [appended,hm]) ?_
      (appended_chained (h.chained l) (h.nodup l) hf (hp l)) hdup hnew
    intro m hm a ha
    refine appended_node_of_ne ?_ (fun hap => hp m (hap ▸ ha))
    rintro rfl
    exact h.disjoint l m hm.symm (by simp [hf]) ha

end PushBack

section Erase

theorem erase_head (h : Chained s l (f l)) (hd : (f l).Nodup) {ys : List ν} (hf : f l = p::ys) :
    ∃ s', s.erase l p = some s' ∧ Chained s' l ys ∧ (∀ m, m ≠ l → s'.list m = s.list m) ∧
      (∀ a, a ∉ f l → s'.node a = s.node a) ∧ ∀ a, (s'.node a).value = (s.node a).value := by
  have hh : (s.list l).pHead = some p := by rw [h.head,hf]; rfl
  have hpath := h.path
  have hlinks := h.links
  have hlast := h.last
  have htail := h.tail
  rw [hf] at hpath hlinks hlast htail hd
  cases ys with
  | nil =>
      have hn : (s.node p).pNext = none := by simpa using hpath.1
      refine ⟨s.setList l {s.list l with pHead := none},by simp [Store.erase,hh,hn],?_,
        fun m hm => by simp [hm],fun _ _ => rfl,fun _ => rfl⟩
      exact ⟨by simp,fun h => (h rfl).elim,List.isChain_nil,by simp⟩
  | cons b ys =>
      have hn : (s.node p).pNext = some b := by simpa using hpath.1
      have hb : ∀ a ∈ b::ys, a ∈ f l := by
        intro a ha
        rw [hf]
        exact List.mem_cons_of_mem _ ha
      refine ⟨(s.setList l {s.list l with pHead := some b}).setPrev b none,
        by simp [Store.erase,hh,hn],⟨by simp,fun _ => ?_,?_,?_⟩,fun m hm => by simp [hm],?_,
        fun a => by simp⟩
      · simpa using htail (by simp)
      · rw [List.isChain_cons_cons] at hlinks
        have hbys : b ∉ ys := (List.nodup_cons.mp (List.nodup_cons.mp hd).2).1
        rw [List.isChain_cons] at hlinks ⊢
        refine ⟨fun c hc => ?_,hlinks.2.2.imp_of_mem_imp fun c d hc hd hcd => ?_⟩
        · have hcb : c ≠ b := fun hcb => hbys (hcb ▸ List.mem_of_head? hc)
          simpa [Linked,Store.setPrev_pPrev,hcb] using hlinks.2.1 c hc
        · have hdb : d ≠ b := fun hdb => hbys (hdb ▸ hd)
          simpa [Linked,Store.setPrev_pPrev,hdb] using hcd
      · intro a ha
        simpa using hlast a (by simpa using ha)
      · intro a ha
        have hab : a ≠ b := fun hab => ha (hab ▸ hb b (by simp))
        simp [Store.setPrev,hab]

theorem erase_tail (h : Chained s l (f l)) (hd : (f l).Nodup) {ys : List ν} {t : ν}
    (hf : f l = ys++[t,p]) :
    ∃ s', s.erase l p = some s' ∧ Chained s' l (ys++[t]) ∧
      (∀ m, m ≠ l → s'.list m = s.list m) ∧ (∀ a, a ∉ f l → s'.node a = s.node a) ∧
      ∀ a, (s'.node a).value = (s.node a).value := by
  have hlinks := h.links
  rw [hf] at hd hlinks
  have hsplit : ys++[t,p] = (ys++[t])++[p] := by simp
  rw [hsplit] at hd
  have hpmem : p ∉ ys++[t] := fun hp => (List.disjoint_of_nodup_append hd) hp (by simp)
  have htys : t ∉ ys := fun ht =>
    (List.disjoint_of_nodup_append (List.Nodup.of_append_left hd)) ht (by simp)
  have hh : (s.list l).pHead ≠ some p := by
    rw [h.head,hf]
    intro hp
    cases ys with
    | nil => exact hpmem (by simp at hp; simp [hp])
    | cons y ys => exact hpmem (by simp at hp; simp [hp])
  have ht : (s.list l).pTail = some p := by
    rw [h.tail (by simp [hf]),hf]
    simp
  have hprev : (s.node p).pPrev = some t := (List.isChain_append_cons_cons.mp hlinks).2.1.2
  refine ⟨(s.setList l {s.list l with pTail := some t}).setNext t none,
    by simp [Store.erase,hh,ht,hprev],⟨?_,fun _ => by simp,?_,?_⟩,fun m hm => by simp [hm],?_,
    fun a => by simp⟩
  · have := h.head
    rw [hf] at this
    simp only [Store.setNext_list,Store.setList_self,this]
    cases ys <;> simp
  · rw [hsplit] at hlinks
    refine hlinks.left_of_append.imp_of_mem_imp fun a b ha hb hab => ?_
    have hat : a ≠ t := by
      rintro rfl
      have hpb : some b = some p :=
        hab.1.symm.trans (List.isChain_append_cons_cons.mp (hsplit ▸ hlinks)).2.1.1
      exact hpmem (Option.some.inj hpb ▸ hb)
    simpa [Linked,Store.setNext_pNext,hat] using hab
  · intro a ha
    obtain rfl : a = t := by simpa using ha.symm
    simp [Store.setNext_pNext]
  · intro a ha
    have hat : a ≠ t := fun hat => ha (by simp [hf,hat])
    simp [Store.setNext,hat]

theorem erase_inner (h : Chained s l (f l)) (hd : (f l).Nodup) {ys zs : List ν} {a b : ν}
    (hf : f l = ys++a::p::b::zs) :
    ∃ s', s.erase l p = some s' ∧ Chained s' l (ys++a::b::zs) ∧
      (∀ m, m ≠ l → s'.list m = s.list m) ∧ (∀ c, c ∉ f l → s'.node c = s.node c) ∧
      ∀ c, (s'.node c).value = (s.node c).value := by
  have hlinks := h.links
  have hlast := h.last
  rw [hf] at hd hlinks hlast
  have hmid := List.isChain_append_cons_cons.mp hlinks
  have hright := List.isChain_cons_cons.mp hmid.2.2
  have hnd := List.nodup_append.mp hd
  have hnd₂ : a ∉ p::b::zs ∧ p ∉ b::zs ∧ b ∉ zs := by
    have h₁ := List.nodup_cons.mp hnd.2.1
    have h₂ := List.nodup_cons.mp h₁.2
    exact ⟨h₁.1,h₂.1,(List.nodup_cons.mp h₂.2).1⟩
  have hys : ∀ c ∈ ys, c ≠ a ∧ c ≠ p ∧ c ≠ b := fun c hc =>
    ⟨hnd.2.2 c hc a (by simp),hnd.2.2 c hc p (by simp),hnd.2.2 c hc b (by simp)⟩
  have hpn : (s.node p).pNext = some b := hright.1.1
  have hpp : (s.node p).pPrev = some a := hmid.2.1.2
  have hab : a ≠ b := fun h => hnd₂.1 (by simp [h])
  have hap : a ≠ p := fun h => hnd₂.1 (by simp [h])
  have hh : (s.list l).pHead ≠ some p := by
    rw [h.head,hf]
    cases ys with
    | nil => simpa using hap
    | cons y ys => simpa using (hys y (by simp)).2.1
  have ht : (s.list l).pTail ≠ some p := by
    rw [h.tail (by simp [hf]),hf]
    intro hp
    have hpz : p ∈ b::zs := by
      have : (b::zs).getLast? = some p := by simpa [List.getLast?_append] using hp
      exact List.mem_of_getLast? this
    exact hnd₂.2.1 hpz
  refine ⟨(s.setPrev b (some a)).setNext a (some b),
    by simp [Store.erase,hh,ht,hpn,hpp,Store.setPrev_pPrev],⟨?_,fun _ => ?_,?_,?_⟩,
    fun m hm => by simp,?_,fun c => by simp⟩
  · have := h.head
    rw [hf] at this
    simp only [Store.setNext_list,Store.setPrev_list,this]
    cases ys <;> simp
  · have := h.tail (by simp [hf])
    rw [hf] at this
    simpa [List.getLast?_append] using this
  · refine List.isChain_append_cons_cons.mpr ⟨?_,⟨?_,?_⟩,?_⟩
    · refine hmid.1.imp_of_mem_imp fun c d hc hd hcd => ?_
      have hdmem : d ≠ p ∧ d ≠ b := by
        rcases List.mem_append.mp hd with hd | hd
        · exact ⟨(hys d hd).2.1,(hys d hd).2.2⟩
        · obtain rfl : d = a := by simpa using hd
          exact ⟨hap,hab⟩
      have hca : c ≠ a := by
        rintro rfl
        exact hdmem.1 (Option.some.inj (hcd.1.symm.trans hmid.2.1.1))
      simpa [Linked,Store.setNext_pNext,Store.setPrev_pPrev,hca,hdmem.2] using hcd
    · simp [Store.setNext_pNext]
    · simp [Store.setPrev_pPrev]
    · refine hright.2.imp_of_mem_tail_imp fun c d hc hd hcd => ?_
      have hca : c ≠ a := fun h => hnd₂.1 (List.mem_cons_of_mem _ (h ▸ hc))
      have hdb : d ≠ b := fun h => hnd₂.2.2 (h ▸ hd)
      simpa [Linked,Store.setNext_pNext,Store.setPrev_pPrev,hca,hdb] using hcd
  · intro c hc
    have hc' : c ∈ (b::zs).getLast? := by simpa [List.getLast?_append] using hc
    have hca : c ≠ a := fun h =>
      hnd₂.1 (List.mem_cons_of_mem _ (h ▸ List.mem_of_getLast? hc'))
    simpa [Store.setNext_pNext,hca] using hlast c (by simpa [List.getLast?_append] using hc)
  · intro c hc
    have hca : c ≠ a := fun h => hc (by simp [hf,h])
    have hcb : c ≠ b := fun h => hc (by simp [hf,h])
    simp [Store.setNext,Store.setPrev,hca,hcb]

/-- `erase` removes a member, whatever its position. -/
theorem Chained.erase {xs : List ν} (h : Chained s l xs) (hd : xs.Nodup) (hp : p ∈ xs) :
    ∃ s', s.erase l p = some s' ∧ Chained s' l (xs.erase p) ∧
      (∀ m, m ≠ l → s'.list m = s.list m) ∧ (∀ a, a ∉ xs → s'.node a = s.node a) ∧
      ∀ a, (s'.node a).value = (s.node a).value := by
  rcases mem_cases hp with ⟨ys,hf⟩ | ⟨ys,t,hf⟩ | ⟨ys,a,b,zs,hf⟩
  · rw [show xs.erase p = ys by simp [hf]]
    exact erase_head (f := fun _ => xs) h hd hf
  · have hrest : xs.erase p = ys++[t] := by
      rw [hf] at hd ⊢
      have hmem : p ∉ ys++[t] := fun hm =>
        (List.disjoint_of_nodup_append (by simpa using hd : ((ys++[t])++[p]).Nodup)) hm (by simp)
      simpa using List.erase_append_right [p] hmem
    rw [hrest]
    exact erase_tail (f := fun _ => xs) h hd hf
  · have hrest : xs.erase p = ys++a::b::zs := by
      rw [hf] at hd ⊢
      have hmem : p ∉ ys++[a] := fun hm =>
        (List.disjoint_of_nodup_append
          (by simpa using hd : ((ys++[a])++p::b::zs).Nodup)) hm (by simp)
      simpa using List.erase_append_right (p::b::zs) hmem
    rw [hrest]
    exact erase_inner (f := fun _ => xs) h hd hf

theorem erase_spec (h : Represents s f) (hp : p ∈ f l) :
    ∃ s', s.erase l p = some s' ∧ Represents s' (Function.update f l ((f l).erase p)) ∧
      ∀ a, (s'.node a).value = (s.node a).value := by
  have hd := h.nodup l
  obtain ⟨s',hs,hc,hl,hn,hv⟩ := (h.chained l).erase hd hp
  refine ⟨s',hs,h.update hl (fun m hm a ha => hn a fun hal => ?_) hc (hd.erase p) ?_,hv⟩
  · exact h.disjoint l m hm.symm hal ha
  · exact fun m hm a ha hb => h.disjoint l m hm.symm (List.mem_of_mem_erase ha) hb

omit [DecidableEq ι] [DecidableEq ν] in
theorem Represents.pPrev_eq {a : ν} {ys zs : List ν} (h : Represents s f)
    (hf : f l = ys++a::p::zs) : (s.node p).pPrev = some a ∧ p ≠ a := by
  have hlinks := (h.chained l).links
  have hd := h.nodup l
  rw [hf] at hlinks hd
  refine ⟨(List.isChain_append_cons_cons.mp hlinks).2.1.2,?_⟩
  rintro rfl
  simp [List.nodup_append] at hd

/-- An erased node keeps its `_pNext`. -/
theorem erase_pNext {s' : Store ι ν τ} (h : Represents s f) (hp : p ∈ f l)
    (hs : s.erase l p = some s') : (s'.node p).pNext = (s.node p).pNext := by
  by_cases hh : (s.list l).pHead = some p
  · cases hn : (s.node p).pNext <;> simp [Store.erase,hh,hn] at hs <;> subst hs <;> simp [hn]
  · obtain ⟨us,zs,hf⟩ := List.append_of_mem hp
    rcases List.eq_nil_or_concat us with rfl | ⟨ys,a,rfl⟩
    · exact absurd ((h.chained l).head.trans (by simp [hf])) hh
    · obtain ⟨hprev,hpa⟩ := h.pPrev_eq (show f l = ys++a::p::zs by simpa using hf)
      by_cases ht : (s.list l).pTail = some p
      · simp only [Store.erase,hh,ht,hprev,ite_true,ite_false,Option.map_some] at hs
        simp [← Option.some.inj hs,Store.setNext_pNext,hpa]
      · cases hn : (s.node p).pNext with
        | none => simp [Store.erase,hh,ht,hn] at hs
        | some b =>
            have hback : ((s.setPrev b (some a)).node p).pPrev = some a := by
              simp [Store.setPrev_pPrev,hprev]
            simp [Store.erase,hh,ht,hn,hprev,hback] at hs
            simp [← hs,Store.setNext_pNext,hpa,hn]

/-- Removing a head writes no `_pNext` and no `_pTail`. -/
theorem erase_head_fields {s' : Store ι ν τ} {ys : List ν} (h : Represents s f)
    (hf : f l = p::ys) (hs : s.erase l p = some s') :
    (∀ a, (s'.node a).pNext = (s.node a).pNext) ∧ (s'.node p).pPrev = (s.node p).pPrev ∧
      ∀ m, (s'.list m).pTail = (s.list m).pTail := by
  have hhead : (s.list l).pHead = some p := by rw [(h.chained l).head,hf]; rfl
  have hnext : (s.node p).pNext = ys.head? := by
    have := (h.chained l).path
    rw [hf] at this
    exact this.1
  have htail : ∀ e : Option ν, ∀ m,
      ((s.setList l {s.list l with pHead := e}).list m).pTail = (s.list m).pTail := by
    intro e m
    by_cases hm : m = l
    · subst hm; simp
    · simp [hm]
  cases ys with
  | nil =>
      simp only [Store.erase,hhead,hnext,List.head?_nil,ite_true,Option.some.injEq] at hs
      subst hs
      exact ⟨fun _ => rfl,rfl,htail _⟩
  | cons b ys =>
      simp only [Store.erase,hhead,hnext,List.head?_cons,ite_true,Option.some.injEq] at hs
      subst hs
      have hpb : p ≠ b := by
        have hd := h.nodup l
        rw [hf] at hd
        rintro rfl
        simp at hd
      exact ⟨fun a => by simp,by simp [Store.setPrev_pPrev,hpb],htail _⟩

omit [DecidableEq ι] [DecidableEq ν] in
/-- The `_pPrev` of a head and the `_pTail` of an empty list are free to change. -/
theorem Represents.congr {s' : Store ι ν τ} (h : Represents s f)
    (hhead : ∀ m, (s'.list m).pHead = (s.list m).pHead)
    (htail : ∀ m, f m ≠ [] → (s'.list m).pTail = (s.list m).pTail)
    (hnext : ∀ m, ∀ c ∈ f m, (s'.node c).pNext = (s.node c).pNext)
    (hprev : ∀ m, ∀ c ∈ f m, (f m).head? ≠ some c → (s'.node c).pPrev = (s.node c).pPrev) :
    Represents s' f := by
  refine ⟨fun m => ⟨(hhead m).trans (h.chained m).head,
    fun hm => (htail m hm).trans ((h.chained m).tail hm),?_,?_⟩,h.nodup,h.disjoint⟩
  · refine (h.chained m).links.imp_of_mem_tail_imp fun c d hc hd hcd => ?_
    have hdm : d ∈ f m := List.mem_of_mem_tail hd
    have hne : (f m).head? ≠ some d := by
      intro hh
      have hn := h.nodup m
      cases hf : f m with
      | nil => simp [hf] at hdm
      | cons e es =>
          rw [hf] at hh hd hn
          obtain rfl : e = d := by simpa using hh
          exact (List.nodup_cons.mp hn).1 hd
    exact ⟨(hnext m c hc).trans hcd.1,(hprev m d hdm hne).trans hcd.2⟩
  · intro c hc
    rw [hnext m c (List.mem_of_getLast? hc)]
    exact (h.chained m).last c hc

/-- `erase` of a node that is in none of the lists writes through its old links.
That does no harm if only a node outside the lists, the null `_pNext` of a tail
or the `_pPrev` of a head is written. -/
theorem erase_stray {a : ν} (h : Represents s f) (hp : ∀ m, p ∉ f m)
    (hprev : (s.node p).pPrev = some a)
    (hcase : if (s.list l).pTail = some p then (s.node a).pNext = none ∨ ∀ m, a ∉ f m
      else ∃ b, (s.node p).pNext = some b ∧ (∀ m, b ∈ f m → (f m).head? = some b) ∧ ∀ m, a ∉ f m) :
    ∃ s', s.erase l p = some s' ∧ Represents s' f ∧
      (∀ c, (s'.node c).value = (s.node c).value) ∧
      ((s.node p).pNext = none → (s'.node p).pNext = none) := by
  have hhead : (s.list l).pHead ≠ some p := by
    rw [(h.chained l).head]
    exact fun hh => hp l (List.mem_of_head? hh)
  by_cases ht : (s.list l).pTail = some p
  · rw [if_pos ht] at hcase
    have hempty : f l = [] := by
      by_contra hne
      exact hp l (List.mem_of_getLast? (((h.chained l).tail hne).symm.trans ht))
    refine ⟨(s.setList l {s.list l with pTail := some a}).setNext a none,
      by simp [Store.erase,hhead,ht,hprev],h.congr (fun m => ?_) (fun m hm => ?_) (fun m c hc => ?_)
        fun m c _ _ => by simp,fun c => by simp,fun hn => by simp [Store.setNext_pNext,hn]⟩
    · by_cases hm : m = l
      · subst hm; simp
      · simp [hm]
    · have hml : m ≠ l := fun hml => hm (hml ▸ hempty)
      simp [hml]
    · rw [Store.setNext_pNext]
      split_ifs with hca
      · subst hca
        rcases hcase with hn | hn
        · simpa using hn.symm
        · exact absurd hc (hn m)
      · simp
  · rw [if_neg ht] at hcase
    obtain ⟨b,hb,hbhead,hfree⟩ := hcase
    have hback : ((s.setPrev b (some a)).node p).pPrev = some a := by
      simp [Store.setPrev_pPrev,hprev]
    refine ⟨(s.setPrev b (some a)).setNext a (some b),
      by simp [Store.erase,hhead,ht,hb,hprev,hback],h.congr (fun m => by simp) (fun m _ => by simp)
        (fun m c hc => ?_) (fun m c hc hne => ?_),fun c => by simp,fun hn => by simp [hb] at hn⟩
    · have hca : c ≠ a := fun hca => hfree m (hca ▸ hc)
      simp [Store.setNext_pNext,hca]
    · have hcb : c ≠ b := fun hcb => hne (hcb ▸ hbhead m (hcb ▸ hc))
      simp [Store.setPrev_pPrev,hcb]

end Erase

section Runs

inductive Call (ι ν : Type) where
  | pushBack (l : ι) (p : ν)
  | erase (l : ι) (p : ν)
  deriving DecidableEq, Repr

/-- The pointer operation of a call. -/
def Store.call (s : Store ι ν τ) : Call ι ν → Option (Store ι ν τ)
  | .pushBack l p => s.pushBack l p
  | .erase l p => s.erase l p

/-- Appending and removing in the obvious way. -/
def sequenceCall (f : ι → List ν) : Call ι ν → ι → List ν
  | .pushBack l p => Function.update f l (f l++[p])
  | .erase l p => Function.update f l ((f l).erase p)

/-- A store next to the sequences it should stand for. -/
def pairStep (x : Store ι ν τ × (ι → List ν)) (c : Call ι ν) :
    Option (Store ι ν τ × (ι → List ν)) :=
  (x.1.call c).map (·,sequenceCall x.2 c)

/-- A pushed node is in none of the lists, an erased one in the list it is
erased from. -/
def Legal (x : Store ι ν τ × (ι → List ν)) : Call ι ν → Prop
  | .pushBack _ p => ∀ m, p ∉ x.2 m
  | .erase l p => p ∈ x.2 l

/-- A node pushed into an empty list has a null `_pNext`. -/
def NoStaleNext (x : Store ι ν τ × (ι → List ν)) : Call ι ν → Prop
  | .pushBack l p => (x.1.list l).pHead = none → (x.1.node p).pNext = none
  | .erase _ _ => True

instance (x : Store ι ν τ × (ι → List ν)) (c : Call ι ν) [Fintype ι] : Decidable (Legal x c) :=
  match c with
  | .pushBack _ p => inferInstanceAs (Decidable (∀ m, p ∉ x.2 m))
  | .erase l p => inferInstanceAs (Decidable (p ∈ x.2 l))

instance (x : Store ι ν τ × (ι → List ν)) (c : Call ι ν) : Decidable (NoStaleNext x c) :=
  match c with
  | .pushBack l p =>
      inferInstanceAs (Decidable ((x.1.list l).pHead = none → (x.1.node p).pNext = none))
  | .erase _ _ => inferInstanceAs (Decidable True)

/-- Everything the list interface shows is read off the sequence. -/
structure Observed (s : Store ι ν τ) (l : ι) (xs : List ν) : Prop where
  walk : ∀ fuel ≥ xs.length, s.walk fuel (s.begin l) = some xs
  size : ∀ fuel ≥ xs.length, s.size fuel l = some xs.length
  empty : s.empty l = xs.isEmpty
  front : s.front l = xs.head?.map fun a => (s.node a).value
  getNode : ∀ fuel ≥ xs.length, ∀ pos, s.getNode fuel l pos = some (nth xs pos)

/-- Freshly constructed lists and nodes. -/
structure Constructed (s : Store ι ν τ) : Prop where
  lists : ∀ l, s.list l = ⟨none,none⟩
  nodes : ∀ a, (s.node a).pNext = none ∧ (s.node a).pPrev = none

omit [DecidableEq ι] [DecidableEq ν] in
theorem Chained.observed {xs : List ν} (h : Chained s l xs) : Observed s l xs where
  walk fuel hf := by rw [Store.begin,h.head]; exact h.path.walk hf
  size fuel hf := by rw [Store.size,h.head,h.path.sizeLoop hf,Nat.zero_add]
  empty := by
    rw [Store.empty,h.head]
    cases xs <;> rfl
  front := by rw [Store.front,h.head]
  getNode fuel hf pos := by rw [Store.getNode,h.head]; exact h.path.getNodeLoop hf pos

omit [DecidableEq ι] [DecidableEq ν] in
theorem Constructed.represents (h : Constructed s) : Represents s fun _ => [] where
  chained l := ⟨by simp [h.lists l],fun hx => (hx rfl).elim,List.isChain_nil,by simp⟩
  nodup _ := List.nodup_nil
  disjoint _ _ _ := fun _ ha => by simp at ha

/-- One legal call without a stale link keeps the representation. -/
theorem pairStep_represents {x : Store ι ν τ × (ι → List ν)} {c : Call ι ν}
    (h : Represents x.1 x.2) (hl : Legal x c) (hn : NoStaleNext x c) :
    ∃ y, pairStep x c = some y ∧ Represents y.1 y.2 := by
  cases c with
  | pushBack l p =>
      obtain ⟨s',hs,hr,-⟩ := pushBack_spec h hl fun hf => hn (h.head_eq_none.mpr hf)
      exact ⟨_,by rw [pairStep,Store.call,hs]; rfl,hr⟩
  | erase l p =>
      obtain ⟨s',hs,hr,-⟩ := erase_spec h hl
      exact ⟨_,by rw [pairStep,Store.call,hs]; rfl,hr⟩

/-- A stale link pushed into an empty list shows in its very next walk. -/
theorem pairStep_stale {x y : Store ι ν τ × (ι → List ν)} {c : Call ι ν}
    (h : Represents x.1 x.2) (hn : ¬ NoStaleNext x c) (hy : pairStep x c = some y) :
    ¬ ∀ l, Observed y.1 l (y.2 l) := by
  cases c with
  | erase l p => exact (hn trivial).elim
  | pushBack l p =>
      simp only [NoStaleNext,Classical.not_imp] at hn
      obtain ⟨hhead,hnext⟩ := hn
      obtain ⟨q,hq⟩ := Option.ne_none_iff_exists'.mp hnext
      have hf : x.2 l = [] := h.head_eq_none.mp hhead
      simp only [pairStep,Store.call,pushBack_of_empty hhead,Option.map_some,
        Option.some.injEq] at hy
      subst hy
      intro hobs
      have hw := (hobs l).walk 1 (by simp [sequenceCall,hf])
      simp [Store.begin,Store.walk,Store.getNext,hq] at hw

/-- The pointer lists show exactly their sequences after every step of a legal
run, and no step faults, if and only if every node that the run pushes into an
empty list has a null `_pNext` at that moment. -/
theorem lists_refine_sequences_iff (hs : Constructed s) (calls : List (Call ι ν))
    (hl : AllSteps pairStep Legal (s,fun _ => []) calls) :
    Always pairStep (fun x => ∀ l, Observed x.1 l (x.2 l)) (s,fun _ => []) calls ↔
      AllSteps pairStep NoStaleNext (s,fun _ => []) calls :=
  always_iff (I := fun x => Represents x.1 x.2)
    (fun _ hx l => (hx.chained l).observed)
    (fun _ _ hx hl hn => pairStep_represents hx hl hn)
    (fun _ _ _ hx _ hn hy => pairStep_stale hx hn hy)
    hs.represents hl

/-- Two lists and three nodes, all freshly constructed. -/
def freshStore : Store (Fin 2) (Fin 3) (Fin 3) where
  node a := ⟨a,none,none⟩
  list _ := ⟨none,none⟩

theorem freshStore_constructed : Constructed freshStore :=
  ⟨fun _ => rfl,fun _ => ⟨rfl,rfl⟩⟩

/-- A node that leaves the tail of one list may start another one. -/
def tailMove : List (Call (Fin 2) (Fin 3)) :=
  [.pushBack 0 0,.pushBack 0 1,.erase 0 1,.pushBack 1 1,.pushBack 0 2,.erase 0 0]

theorem lists_refine_sequences_tailMove :
    Always pairStep (fun x => ∀ l, Observed x.1 l (x.2 l)) (freshStore,fun _ => []) tailMove :=
  (lists_refine_sequences_iff freshStore_constructed tailMove (by decide)).mpr (by decide)

/-- A node that leaves the head of one list carries its old `_pNext` into the
next empty list, whose walk then also visits the old successor. -/
def headMove : List (Call (Fin 2) (Fin 3)) :=
  [.pushBack 0 0,.pushBack 0 1,.erase 0 0,.pushBack 1 0]

theorem headMove_breaks_refinement :
    AllSteps pairStep Legal (freshStore,fun _ => []) headMove ∧
      ((headMove.foldlM pairStep (freshStore,fun _ => [])).bind fun x =>
        x.1.walk 3 (x.1.begin 1)) = some [0,1] ∧
      ((headMove.foldlM pairStep (freshStore,fun _ => [])).map fun x => x.2 1) = some [0] ∧
      ¬ Always pairStep (fun x => ∀ l, Observed x.1 l (x.2 l)) (freshStore,fun _ => []) headMove := by
  refine ⟨by decide,by decide,by decide,fun h => ?_⟩
  obtain ⟨x,hx,hobs⟩ := h.last
  have hw : (some x).bind (fun x => x.1.walk 3 (x.1.begin 1)) = some [0,1] := hx ▸ by decide
  have hf : (some x).map (fun x => x.2 1) = some [0] := hx ▸ by decide
  simp only [Option.bind_some,Option.map_some,Option.some.injEq] at hw hf
  have := (hobs 1).walk 3 (by simp [hf])
  simp [hw,hf] at this

end Runs

end CosKernel.IntrusiveList
