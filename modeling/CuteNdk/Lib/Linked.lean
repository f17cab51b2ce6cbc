import Mathlib.Data.List.Basic
import Mathlib.Logic.Function.Basic

/-! Linked lists in a store: a pointer is an optional node and a link field is a
function of the node. Seg says which nodes a walk meets; everything about a
list that a program splices is a fact about Seg and Function.update. -/
namespace CuteNdk.Lib

variable {ν : Type*}

/- The walk from p meets the nodes of l in that order and ends at q. -/
def Seg (next : ν → Option ν) : Option ν → List ν → Option ν → Prop
  | p, [], q => p = q
  | p, a :: l, q => p = some a ∧ Seg next (next a) l q

instance decidableSeg [DecidableEq ν] (next : ν → Option ν) : (p : Option ν) → (l : List ν) → (q : Option ν) →
    Decidable (Seg next p l q)
  | p, [], q => inferInstanceAs (Decidable (p = q))
  | p, a :: l, q =>
    have := decidableSeg next (next a) l q
    inferInstanceAs (Decidable (p = some a ∧ Seg next (next a) l q))

theorem segAppend {next : ν → Option ν} {p q : Option ν} {l₁ l₂ : List ν} :
    Seg next p (l₁ ++ l₂) q ↔ ∃ m, Seg next p l₁ m ∧ Seg next m l₂ q := by
  induction l₁ generalizing p with
  | nil => simp [Seg]
  | cons a l ih => simp [Seg,ih,and_assoc]

theorem segCongr {next next' : ν → Option ν} {p q : Option ν} {l : List ν}
    (same : ∀ a ∈ l, next' a = next a) : Seg next' p l q ↔ Seg next p l q := by
  induction l generalizing p with
  | nil => rfl
  | cons a l ih =>
    simp only [Seg,same a List.mem_cons_self]
    rw [ih fun b hb => same b (List.mem_cons_of_mem a hb)]

theorem segHead {next : ν → Option ν} {p : Option ν} {l : List ν} (h : Seg next p l none) :
    p = l.head? := by
  cases l with
  | nil => exact h
  | cons a l => exact h.1

theorem segNull {next : ν → Option ν} {l : List ν} (h : Seg next none l none) : l = [] := by
  cases l with
  | nil => rfl
  | cons a l => exact absurd h.1 nofun

theorem segUnique {next : ν → Option ν} {p : Option ν} {l l' : List ν}
    (h : Seg next p l none) (h' : Seg next p l' none) : l = l' := by
  induction l generalizing p l' with
  | nil => cases h; exact (segNull h').symm
  | cons a l ih =>
    cases l' with
    | nil => exact absurd (h.1.symm.trans h') nofun
    | cons b l' =>
      have same : a = b := Option.some.inj (h.1.symm.trans h'.1)
      subst b
      rw [ih h.2 h'.2]

/- A walk that ends meets no node twice: from the second meeting on it would
have to end both as it did from the first and later. -/
theorem segNodup {next : ν → Option ν} {p : Option ν} {l : List ν} (h : Seg next p l none) :
    l.Nodup := by
  induction l generalizing p with
  | nil => exact List.nodup_nil
  | cons a l ih =>
    refine List.nodup_cons.mpr ⟨fun again => ?_,ih h.2⟩
    obtain ⟨l₁,l₂,split⟩ := List.append_of_mem again
    have tail := h.2
    rw [split] at tail
    obtain ⟨m,_,later⟩ := segAppend.mp tail
    have short : l₂ = l := segUnique later.2 h.2
    have len := congrArg List.length split
    rw [short] at len
    simp at len
    omega

/- A list linked both ways: the walk back from the tail meets the same nodes in
the opposite order. -/
structure Dll (next prev : ν → Option ν) (head tail : Option ν) (l : List ν) : Prop where
  forth : Seg next head l none
  back : Seg prev tail l.reverse none

theorem dllNodup {next prev : ν → Option ν} {head tail : Option ν} {l : List ν}
    (h : Dll next prev head tail l) : l.Nodup := segNodup h.forth

theorem dllEnds {next prev : ν → Option ν} {head tail : Option ν} {l : List ν}
    (h : Dll next prev head tail l) : head = l.head? ∧ tail = l.getLast? := by
  refine ⟨segHead h.forth,?_⟩
  rw [segHead h.back,List.head?_reverse]

theorem dllNeighbours {next prev : ν → Option ν} {head tail : Option ν} {l₁ l₂ : List ν} {z : ν}
    (h : Dll next prev head tail (l₁ ++ z :: l₂)) : next z = l₂.head? ∧ prev z = l₁.getLast? := by
  obtain ⟨m,_,rest⟩ := segAppend.mp h.forth
  have back := h.back
  rw [List.reverse_append,List.reverse_cons,List.append_assoc] at back
  obtain ⟨n,_,before⟩ := segAppend.mp back
  exact ⟨segHead rest.2,(segHead before.2).trans List.head?_reverse⟩

/- Where the list is cut, the nodes on both sides know each other. -/
theorem dllSeam {next prev : ν → Option ν} {head tail : Option ν} {l₁ l₂ : List ν}
    (h : Dll next prev head tail (l₁ ++ l₂)) :
    (∀ a ∈ l₁.getLast?, next a = l₂.head?) ∧ ∀ a ∈ l₂.head?, prev a = l₁.getLast? := by
  refine ⟨fun a last => ?_,fun a first => ?_⟩
  · obtain ⟨l,rfl⟩ := List.getLast?_eq_some_iff.1 last
    rw [List.append_assoc] at h
    exact (dllNeighbours h).1
  · obtain ⟨l,rfl⟩ := List.head?_eq_some_iff.1 first
    exact (dllNeighbours h).2

theorem dllFirst {next prev : ν → Option ν} {head tail : Option ν} {l : List ν} {z : ν}
    (h : Dll next prev head tail (z :: l)) : next z = l.head? ∧ prev z = none :=
  dllNeighbours (show Dll next prev head tail ([] ++ z :: l) from h)

theorem dllLast {next prev : ν → Option ν} {head tail : Option ν} {l : List ν} {z : ν}
    (h : Dll next prev head tail (l ++ [z])) : next z = none ∧ prev z = l.getLast? :=
  dllNeighbours (show Dll next prev head tail (l ++ z :: []) from h)

theorem dllSymm {next prev : ν → Option ν} {head tail : Option ν} {l : List ν}
    (h : Dll next prev head tail l) : Dll prev next tail head l.reverse :=
  ⟨h.back,by rw [List.reverse_reverse]; exact h.forth⟩

/- What follows a node knows it as the one before. -/
theorem dllFollows {next prev : ν → Option ν} {head tail : Option ν} {l : List ν} {a b : ν}
    (h : Dll next prev head tail l) (mem : a ∈ l) (follows : next a = some b) : b ∈ l ∧ prev b = some a := by
  obtain ⟨l₁,l₂,rfl⟩ := List.append_of_mem mem
  have first : l₂.head? = some b := (dllNeighbours h).1.symm.trans follows
  rw [List.append_cons] at h
  refine ⟨List.mem_append_right l₁ (List.mem_cons_of_mem a (List.mem_of_mem_head? first)),?_⟩
  rw [(dllSeam h).2 b first]
  exact List.getLast?_concat

theorem dllCongr {next prev next' prev' : ν → Option ν} {head tail : Option ν} {l : List ν}
    (h : Dll next prev head tail l) (sameNext : ∀ a ∈ l, next' a = next a)
    (samePrev : ∀ a ∈ l, prev' a = prev a) : Dll next' prev' head tail l :=
  ⟨(segCongr sameNext).mpr h.forth,
    (segCongr fun a ha => samePrev a (List.mem_reverse.mp ha)).mpr h.back⟩

/- The nodes a walk meets, n of them at most. -/
def walk (next : ν → Option ν) : Nat → Option ν → List ν
  | 0, _ => []
  | _ + 1, none => []
  | n + 1, some a => a :: walk next n (next a)

theorem walkSeg {next : ν → Option ν} {p : Option ν} {l : List ν} {n : Nat}
    (h : Seg next p l none) (enough : l.length ≤ n) : walk next n p = l := by
  induction l generalizing n p with
  | nil => cases h; cases n <;> rfl
  | cons a l ih =>
    obtain ⟨k,rfl⟩ := Nat.exists_eq_succ_of_ne_zero (Nat.ne_of_gt (Nat.zero_lt_of_lt enough))
    rw [h.1]
    simp only [walk]
    rw [ih h.2 (Nat.le_of_succ_le_succ enough)]

/- while (itor->next && go(itor->next)) itor = itor->next; none is a walk that
has not stopped after the nodes the fuel allows. -/
def advance (next : ν → Option ν) (go : ν → Bool) : Nat → ν → Option ν
  | 0, _ => none
  | n + 1, a =>
    match next a with
    | none => some a
    | some b => if go b then advance next go n b else some a

theorem advanceStops {next : ν → Option ν} {a : ν} {l : List ν} {n : Nat} (go : ν → Bool)
    (h : Seg next (next a) l none) (enough : l.length < n) :
    ∃ l₁ l₂, l = l₁ ++ l₂ ∧ (∀ b ∈ l₁, go b = true) ∧ (∀ b ∈ l₂.head?, go b = false) ∧
      advance next go n a = (a :: l₁).getLast? := by
  induction l generalizing n a with
  | nil =>
    obtain ⟨k,rfl⟩ := Nat.exists_eq_succ_of_ne_zero (Nat.ne_of_gt enough)
    exact ⟨[],[],rfl,nofun,nofun,by simp [advance,show next a = none from h]⟩
  | cons b l ih =>
    obtain ⟨k,rfl⟩ := Nat.exists_eq_succ_of_ne_zero (Nat.ne_of_gt (Nat.zero_lt_of_lt enough))
    by_cases on : go b = true
    · obtain ⟨l₁,l₂,split,along,stop,found⟩ := ih h.2 (Nat.lt_of_succ_lt_succ enough)
      refine ⟨b :: l₁,l₂,by rw [split]; rfl,?_,stop,?_⟩
      · simpa [on] using along
      · simp only [advance,h.1,on,if_true]
        rw [found,List.getLast?_cons_cons]
    · exact ⟨[],b :: l,rfl,nofun,by simpa using on,by simp [advance,h.1,on]⟩

/- The walk stops in front of the first node it is not to go on to. -/
theorem advanceTo {next : ν → Option ν} {a b : ν} {l₁ l₂ : List ν} {n : Nat} {go : ν → Bool}
    (h : Seg next (next a) (l₁ ++ b :: l₂) none) (along : ∀ c ∈ l₁, go c = true) (stop : go b = false)
    (enough : l₁.length < n) : advance next go n a = (a :: l₁).getLast? := by
  induction l₁ generalizing n a with
  | nil =>
    obtain ⟨k,rfl⟩ := Nat.exists_eq_succ_of_ne_zero (Nat.ne_of_gt enough)
    simp [advance,h.1,stop]
  | cons c l₁ ih =>
    obtain ⟨k,rfl⟩ := Nat.exists_eq_succ_of_ne_zero (Nat.ne_of_gt (Nat.zero_lt_of_lt enough))
    have on := along c List.mem_cons_self
    simp only [advance,h.1,on,if_true]
    rw [ih h.2 (fun d mem => along d (List.mem_cons_of_mem c mem)) (Nat.lt_of_succ_lt_succ enough),
      List.getLast?_cons_cons]

theorem segRetarget {next next' : ν → Option ν} {p m m' : Option ν} {l : List ν}
    (h : Seg next p l m) (front : ∀ a ∈ l.dropLast, next' a = next a)
    (last : ∀ a ∈ l.getLast?, next' a = m') : Seg next' (if l = [] then m' else p) l m' := by
  rcases List.eq_nil_or_concat' l with rfl | ⟨l,a,rfl⟩
  · exact rfl
  · obtain ⟨k,before,at_⟩ := segAppend.mp h
    rw [if_neg (by simp)]
    refine segAppend.mpr ⟨k,(segCongr fun b hb => front b (by simpa using hb)).mpr before,at_.1,?_⟩
    exact last a (by simp)

/- Putting other nodes in the place of some: what happens to the links of the
nodes around them. Inserting, removing and exchanging nodes are cases of it. -/
theorem segSplice {next next' : ν → Option ν} {p : Option ν} {l₁ mid mid' l₂ : List ν}
    (h : Seg next p (l₁ ++ (mid ++ l₂)) none) (front : ∀ a ∈ l₁.dropLast, next' a = next a)
    (last : ∀ a ∈ l₁.getLast?, next' a = (mid' ++ l₂).head?)
    (middle : Seg next' (mid' ++ l₂).head? mid' l₂.head?) (rest : ∀ a ∈ l₂, next' a = next a) :
    Seg next' (l₁ ++ (mid' ++ l₂)).head? (l₁ ++ (mid' ++ l₂)) none := by
  obtain ⟨m,before,later⟩ := segAppend.mp h
  obtain ⟨k,_,after⟩ := segAppend.mp later
  have tail : Seg next' l₂.head? l₂ none := by
    rw [segCongr rest,← segHead after]
    exact after
  have start : (if l₁ = [] then (mid' ++ l₂).head? else p) = (l₁ ++ (mid' ++ l₂)).head? := by
    cases l₁ with
    | nil => rfl
    | cons a l => exact h.1
  rw [← start]
  exact segAppend.mpr ⟨_,segRetarget before front last,segAppend.mpr ⟨_,middle,tail⟩⟩

theorem dllSplice {next prev next' prev' : ν → Option ν} {head tail : Option ν}
    {l₁ mid mid' l₂ : List ν} (h : Dll next prev head tail (l₁ ++ (mid ++ l₂)))
    (frontNext : ∀ a ∈ l₁.dropLast, next' a = next a)
    (lastNext : ∀ a ∈ l₁.getLast?, next' a = (mid' ++ l₂).head?)
    (middleNext : Seg next' (mid' ++ l₂).head? mid' l₂.head?)
    (restNext : ∀ a ∈ l₂, next' a = next a)
    (frontPrev : ∀ a ∈ l₁, prev' a = prev a)
    (middlePrev : Seg prev' (l₁ ++ mid').getLast? mid'.reverse l₁.getLast?)
    (firstPrev : ∀ a ∈ l₂.head?, prev' a = (l₁ ++ mid').getLast?)
    (restPrev : ∀ a ∈ l₂.tail, prev' a = prev a) :
    Dll next' prev' (l₁ ++ (mid' ++ l₂)).head? (l₁ ++ (mid' ++ l₂)).getLast? (l₁ ++ (mid' ++ l₂)) := by
  refine ⟨segSplice h.forth frontNext lastNext middleNext restNext,?_⟩
  have back := h.back
  rw [List.reverse_append,List.reverse_append,List.append_assoc] at back
  have spliced : Seg prev' (l₂.reverse ++ (mid'.reverse ++ l₁.reverse)).head?
      (l₂.reverse ++ (mid'.reverse ++ l₁.reverse)) none := segSplice back
    (fun a ha => restPrev a (by simpa using ha))
    (fun a ha => by
      rw [← List.reverse_append,List.head?_reverse]
      exact firstPrev a (by simpa using ha))
    (by
      rw [← List.reverse_append,List.head?_reverse,List.head?_reverse]
      exact middlePrev)
    (fun a ha => frontPrev a (List.mem_reverse.mp ha))
  rw [List.reverse_append,List.reverse_append,List.append_assoc]
  rw [← List.head?_reverse,List.reverse_append,List.reverse_append,List.append_assoc]
  exact spliced

theorem apartOfNodup {l₁ mid l₂ : List ν} (nodup : (l₁ ++ (mid ++ l₂)).Nodup) {a : ν} (mem : a ∈ l₁) :
    a ∉ l₂ := fun later =>
  (List.nodup_append.mp nodup).2.2 a mem a (List.mem_append_right mid later) rfl

theorem dropLastOther {l : List ν} (nodup : l.Nodup) {a : ν} (mem : a ∈ l.dropLast) :
    l.getLast? ≠ some a := by
  rcases List.eq_nil_or_concat' l with rfl | ⟨l,b,rfl⟩
  · simp
  · simp only [List.dropLast_concat] at mem
    rw [List.getLast?_concat]
    rintro ⟨⟩
    exact (List.nodup_append.mp nodup).2.2 a mem a (List.mem_singleton_self a) rfl

theorem tailOther {l : List ν} (nodup : l.Nodup) {a : ν} (mem : a ∈ l.tail) : l.head? ≠ some a := by
  cases l with
  | nil => simp
  | cons b l =>
    rintro ⟨⟩
    exact (List.nodup_cons.mp nodup).1 mem

/- One node in the place of those of mid, which may be none: it is linked to the
nodes around the place and they to it, and no other link has changed. -/
theorem dllPut {next prev next' prev' : ν → Option ν} {head tail : Option ν} {l₁ mid l₂ : List ν}
    {z : ν} (h : Dll next prev head tail (l₁ ++ (mid ++ l₂)))
    (toNext : next' z = l₂.head?) (toPrev : prev' z = l₁.getLast?)
    (fromPrev : ∀ a ∈ l₁.getLast?, next' a = some z) (fromNext : ∀ a ∈ l₂.head?, prev' a = some z)
    (sameNext : ∀ a, a ∈ l₁ ∨ a ∈ l₂ → l₁.getLast? ≠ some a → next' a = next a)
    (samePrev : ∀ a, a ∈ l₁ ∨ a ∈ l₂ → l₂.head? ≠ some a → prev' a = prev a) :
    Dll next' prev' (l₁ ++ z :: l₂).head? (l₁ ++ z :: l₂).getLast? (l₁ ++ z :: l₂) := by
  have nodup := dllNodup h
  have nodup₁ := (List.nodup_append.mp nodup).1
  have nodup₂ := (List.nodup_append.mp (List.nodup_append.mp nodup).2.1).2.1
  change Dll next' prev' (l₁ ++ ([z] ++ l₂)).head? (l₁ ++ ([z] ++ l₂)).getLast? (l₁ ++ ([z] ++ l₂))
  refine dllSplice h (fun a ha => ?_) fromPrev ⟨rfl,toNext⟩ (fun a ha => ?_) (fun a ha => ?_)
    ⟨by simp,toPrev⟩ (fun a ha => ?_) fun a ha => ?_
  · exact sameNext a (.inl (List.dropLast_subset _ ha)) (dropLastOther nodup₁ ha)
  · exact sameNext a (.inr ha) fun last => apartOfNodup nodup (List.mem_of_getLast? last) ha
  · exact samePrev a (.inl ha) fun first => apartOfNodup nodup ha (List.mem_of_head? first)
  · rw [fromNext a ha]
    simp
  · exact samePrev a (.inr (List.mem_of_mem_tail ha)) (tailOther nodup₂ ha)

/- Two nodes that follow each other change places. -/
theorem dllExchange {next prev next' prev' : ν → Option ν} {head tail : Option ν} {l₁ l₂ : List ν} {a b : ν}
    (h : Dll next prev head tail (l₁ ++ a :: b :: l₂)) (nextA : next' a = l₂.head?) (nextB : next' b = some a)
    (prevA : prev' a = some b) (prevB : prev' b = l₁.getLast?)
    (fromBefore : ∀ z ∈ l₁.getLast?, next' z = some b) (fromAfter : ∀ z ∈ l₂.head?, prev' z = some a)
    (sameNext : ∀ z, z ∈ l₁ ∨ z ∈ l₂ → l₁.getLast? ≠ some z → next' z = next z)
    (samePrev : ∀ z, z ∈ l₁ ∨ z ∈ l₂ → l₂.head? ≠ some z → prev' z = prev z) :
    Dll next' prev' (l₁ ++ b :: a :: l₂).head? (l₁ ++ b :: a :: l₂).getLast? (l₁ ++ b :: a :: l₂) := by
  have nodup : (l₁ ++ ([a,b] ++ l₂)).Nodup := dllNodup h
  have nodup₁ := (List.nodup_append.mp nodup).1
  have nodup₂ := (List.nodup_append.mp (List.nodup_append.mp nodup).2.1).2.1
  change Dll next' prev' (l₁ ++ ([b,a] ++ l₂)).head? (l₁ ++ ([b,a] ++ l₂)).getLast? (l₁ ++ ([b,a] ++ l₂))
  have apart : Dll next prev head tail (l₁ ++ ([a,b] ++ l₂)) := h
  refine dllSplice apart (fun z mem => ?_) fromBefore ⟨rfl,nextB,nextA⟩ (fun z mem => ?_) (fun z mem => ?_)
    ⟨by simp,prevA,prevB⟩ (fun z first => ?_) fun z mem => ?_
  · exact sameNext z (.inl (List.dropLast_subset _ mem)) (dropLastOther nodup₁ mem)
  · exact sameNext z (.inr mem) fun last => apartOfNodup nodup (List.mem_of_getLast? last) mem
  · exact samePrev z (.inl mem) fun first => apartOfNodup nodup mem (List.mem_of_head? first)
  · rw [fromAfter z first]
    simp
  · exact samePrev z (.inr (List.mem_of_mem_tail mem)) (tailOther nodup₂ mem)

/- What is left when the nodes in front go: the first node kept has no node
before it. -/
theorem dllDropFront {next prev next' prev' : ν → Option ν} {head tail : Option ν} {l₁ l₂ : List ν}
    (h : Dll next prev head tail (l₁ ++ l₂)) (sameNext : ∀ a ∈ l₂, next' a = next a)
    (first : ∀ a ∈ l₂.head?, prev' a = none) (samePrev : ∀ a ∈ l₂.tail, prev' a = prev a) :
    Dll next' prev' l₂.head? l₂.getLast? l₂ := by
  change Dll next' prev' ([] ++ ([] ++ l₂)).head? ([] ++ ([] ++ l₂)).getLast? ([] ++ ([] ++ l₂))
  exact dllSplice h nofun nofun rfl sameNext nofun rfl first samePrev

/- The same at the other end. -/
theorem dllDropBack {next prev next' prev' : ν → Option ν} {head tail : Option ν} {l₁ l₂ : List ν}
    (h : Dll next prev head tail (l₁ ++ l₂)) (samePrev : ∀ a ∈ l₁, prev' a = prev a)
    (last : ∀ a ∈ l₁.getLast?, next' a = none) (sameNext : ∀ a ∈ l₁.dropLast, next' a = next a) :
    Dll next' prev' l₁.head? l₁.getLast? l₁ := by
  have back := dllSymm h
  rw [List.reverse_append] at back
  have dropped := dllSymm (show Dll prev' next' l₁.reverse.head? l₁.reverse.getLast? l₁.reverse from dllDropFront back
    (fun a ha => samePrev a (List.mem_reverse.mp ha)) (fun a ha => last a (by simpa using ha))
    fun a ha => sameNext a (by simpa using ha))
  simpa using dropped

section Update
variable [DecidableEq ν]

theorem segUpdate {next : ν → Option ν} {p q r : Option ν} {l : List ν} {z : ν} (off : z ∉ l) :
    Seg (Function.update next z r) p l q ↔ Seg next p l q := by
  apply segCongr
  intro a ha
  have other : a ≠ z := fun same => off (same ▸ ha)
  exact Function.update_of_ne other r next

/- Redirecting the last node's link redirects where the walk ends. -/
theorem segSetLast {next : ν → Option ν} {p q r : Option ν} {l : List ν} {z : ν}
    (h : Seg next p (l ++ [z]) q) (off : z ∉ l) :
    Seg (Function.update next z r) p (l ++ [z]) r := by
  obtain ⟨m,front,last⟩ := segAppend.mp h
  exact segAppend.mpr ⟨m,(segUpdate off).mpr front,last.1,Function.update_self _ _ _⟩

/- for (curr = p; curr != 0 && curr != stop; curr = next(curr)) prev = curr; the
fuel bounds the nodes the walk can meet. -/
def seek (next : ν → Option ν) (stop : ν) : Nat → Option ν → Option ν → Option ν × Option ν
  | 0, prev, curr => (prev,curr)
  | _ + 1, prev, none => (prev,none)
  | fuel + 1, prev, some c =>
      if c = stop then (prev,some c) else seek next stop fuel (some c) (next c)

theorem seekFound {next : ν → Option ν} {stop : ν} {fuel : Nat} {prev p : Option ν}
    {l₁ l₂ : List ν} (h : Seg next p (l₁ ++ stop :: l₂) none) (enough : l₁.length < fuel) :
    seek next stop fuel prev p = (l₁.getLast?.or prev,some stop) := by
  have fresh : stop ∉ l₁ := fun mem =>
    (List.nodup_append.mp (segNodup h)).2.2 stop mem stop List.mem_cons_self rfl
  induction l₁ generalizing fuel prev p with
  | nil =>
    obtain ⟨n,rfl⟩ := Nat.exists_eq_succ_of_ne_zero (Nat.ne_of_gt enough)
    rw [h.1]
    simp [seek]
  | cons a l ih =>
    obtain ⟨n,rfl⟩ := Nat.exists_eq_succ_of_ne_zero (Nat.ne_of_gt (Nat.zero_lt_of_lt enough))
    have other : a ≠ stop := fun same => fresh (same ▸ List.mem_cons_self)
    rw [h.1]
    simp only [seek,if_neg other]
    rw [ih h.2 (Nat.lt_of_succ_lt_succ enough) fun mem => fresh (List.mem_cons_of_mem a mem)]
    rw [List.getLast?_cons]
    cases l.getLast? <;> rfl

/- What a store into the link of an optional node does: none is no store. -/
def relink (link : ν → Option ν) (node target : Option ν) : ν → Option ν :=
  match node with
  | none => link
  | some a => Function.update link a target

theorem relinkSelf {link : ν → Option ν} {node target : Option ν} {a : ν} (at_ : node = some a) :
    relink link node target a = target := by
  subst at_
  exact Function.update_self _ _ _

theorem relinkApart {link : ν → Option ν} {node target : Option ν} {a : ν} (off : node ≠ some a) :
    relink link node target a = link a := by
  cases node with
  | none => rfl
  | some b =>
    have other : a ≠ b := fun same => off (congrArg some same.symm)
    exact Function.update_of_ne other _ _

theorem relinkUpdate {link : ν → Option ν} {node target target' : Option ν} {a : ν} (off : node ≠ some a) :
    relink (Function.update link a target) node target' = Function.update (relink link node target') a target := by
  cases node with
  | none => rfl
  | some b =>
    have other : b ≠ a := fun same => off (congrArg some same)
    exact Function.update_comm other.symm _ _ _

theorem relinkOff {link : ν → Option ν} {node target p q : Option ν} {l : List ν}
    (off : ∀ a ∈ node, a ∉ l) : Seg (relink link node target) p l q ↔ Seg link p l q := by
  cases node with
  | none => rfl
  | some a => exact segUpdate (off a rfl)

/- Taking a node out of a walk: the node before it, or else the start of the
walk, goes on to where it led. -/
theorem segUnlink {next : ν → Option ν} {p : Option ν} {l₁ l₂ : List ν} {z : ν}
    (h : Seg next p (l₁ ++ z :: l₂) none) :
    Seg (relink next l₁.getLast? (next z)) (if l₁ = [] then next z else p) (l₁ ++ l₂) none := by
  have nodup := segNodup h
  obtain ⟨m,front,rest⟩ := segAppend.mp h
  rcases List.eq_nil_or_concat' l₁ with rfl | ⟨l,a,rfl⟩
  · simpa [relink] using rest.2
  · have apart : a ∉ l ∧ a ∉ l₂ := by
      simp only [List.append_assoc,List.singleton_append,List.nodup_append,List.nodup_cons,
        List.mem_cons,not_or] at nodup
      exact ⟨fun mem => nodup.2.2 a mem a (.inl rfl) rfl,fun mem => nodup.2.1.1.2 mem⟩
    rw [if_neg (by simp),segAppend]
    refine ⟨next z,?_,?_⟩
    · simpa [relink] using segSetLast (r := next z) front apart.1
    · exact (relinkOff (by simpa using apart.2)).mpr rest.2

theorem dllUnlink {next prev : ν → Option ν} {head tail : Option ν} {l₁ l₂ : List ν} {z : ν}
    (h : Dll next prev head tail (l₁ ++ z :: l₂)) :
    Dll (relink next (prev z) (next z)) (relink prev (next z) (prev z))
      (if prev z = none then next z else head) (if next z = none then prev z else tail) (l₁ ++ l₂) := by
  have neighbours := dllNeighbours h
  have forth := segUnlink h.forth
  have back := h.back
  rw [List.reverse_append,List.reverse_cons,List.append_assoc,List.singleton_append] at back
  have back := segUnlink back
  rw [List.getLast?_reverse] at back
  have first : prev z = none ↔ l₁ = [] := by rw [neighbours.2]; exact List.getLast?_eq_none_iff
  have last : next z = none ↔ l₂ = [] := by rw [neighbours.1]; exact List.head?_eq_none_iff
  refine ⟨?_,?_⟩
  · simp only [first]
    rw [neighbours.2]
    exact forth
  · rw [List.reverse_append]
    simp only [last]
    simp only [List.reverse_eq_nil_iff,← neighbours.1] at back
    exact back

/- Appending a node whose next link is null already. -/
theorem dllPush {next prev : ν → Option ν} {head tail : Option ν} {l : List ν} {z : ν}
    (h : Dll next prev head tail l) (fresh : z ∉ l) (null : next z = none) :
    Dll (relink next tail (some z)) (Function.update prev z tail)
      (if head = none then some z else head) (some z) (l ++ [z]) := by
  obtain ⟨first,last⟩ := dllEnds h
  refine ⟨?_,?_⟩
  · rcases List.eq_nil_or_concat' l with rfl | ⟨l,a,rfl⟩
    · cases first
      cases last
      exact ⟨rfl,null⟩
    · have other : z ≠ a := fun same => fresh (by simp [same])
      have inner : a ∉ l := by
        have nodup := dllNodup h
        simp only [List.nodup_append] at nodup
        exact fun mem => nodup.2.2 a mem a (List.mem_singleton_self a) rfl
      have start : head ≠ none := by rw [first]; simp
      have end_ : tail = some a := by rw [last]; simp
      subst end_
      rw [if_neg start,segAppend]
      exact ⟨some z,segSetLast h.forth inner,rfl,(Function.update_of_ne other _ _).trans null⟩
  · rw [List.reverse_append]
    refine ⟨rfl,?_⟩
    rw [Function.update_self,segUpdate (by simpa using fresh)]
    exact h.back

/- Prepending a node whose prev link is null already. -/
theorem dllPushFront {next prev : ν → Option ν} {head tail : Option ν} {l : List ν} {z : ν}
    (h : Dll next prev head tail l) (fresh : z ∉ l) (null : prev z = none) :
    Dll (Function.update next z head) (relink prev head (some z)) (some z)
      (if tail = none then some z else tail) (z :: l) := by
  have back := dllSymm (dllPush (dllSymm h) (by simpa using fresh) null)
  rwa [List.reverse_append,List.reverse_reverse] at back

end Update

end CuteNdk.Lib
