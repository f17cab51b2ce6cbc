import CuteNdk.CacheDeque
import CuteNdk.Lib.Run

/-! ~cache_deque. Its first loop puts the items of the deque on the free list and goes on to
next_, which by then is the link of the free list. -/
namespace CuteNdk.Cache
open Lib (Seg run Along Always alwaysMono alwaysOfInvariant alwaysAtEnd walk walkSeg segNull segNodup dllNodup dllEnds)

namespace CacheDeque
variable {K : Type}

/- The loop over the deque; none is a loop that has not ended after fuel turns. -/
def releaseAll : Nat → CacheDeque K → Option Item → Option (CacheDeque K)
  | 0, _, _ => none
  | _ + 1, d, none => some d
  | fuel + 1, d, some itor =>
    let d := d.releaseItem itor
    releaseAll fuel d (d.next itor)

/- The loop over the free list: the items in the order they are deleted. -/
def deleteAll : Nat → CacheDeque K → Option Item → Option (List Item)
  | 0, _, _ => none
  | _ + 1, _, none => some []
  | fuel + 1, d, some itor => (deleteAll fuel d (d.next itor)).map (itor :: ·)

def destroy (fuel : Nat) (d : CacheDeque K) : Option (List Item) := do
  let d ← d.releaseAll fuel d.dequeHead
  let d := { d with dequeHead := none, dequeTail := none }
  d.deleteAll fuel d.freeQueue

/- The destructor ends, and every item alloc_item has made is deleted once. -/
def Destroyed (d : CacheDeque K) : Prop :=
  ∃ fuel deleted, d.destroy fuel = some deleted ∧ deleted.Perm (List.range d.made)

/- One of the two lists has nothing to say: the deque is empty, or it is one item and no
item is free. -/
def Destroyable (d : CacheDeque K) : Prop :=
  d.dequeHead = none ∨ d.dequeHead = d.dequeTail ∧ d.freeQueue = none

instance (d : CacheDeque K) : Decidable d.Destroyable := by unfold Destroyable; infer_instance

theorem deleteAllRuns {d : CacheDeque K} {l : List Item} {p : Option Item} {fuel : Nat}
    (chain : Seg d.next p l none) (enough : l.length < fuel) : d.deleteAll fuel p = some l := by
  induction l generalizing p fuel with
  | nil =>
    cases chain
    cases fuel with
    | zero => cases enough
    | succ fuel => rfl
  | cons i l ih =>
    obtain ⟨rfl,rest⟩ := chain
    cases fuel with
    | zero => cases enough
    | succ fuel =>
      simp only [deleteAll,ih rest (Nat.lt_of_succ_lt_succ enough),Option.map_some]

/- Once an item is free each turn leads to the item that was released before. -/
theorem releaseAllRuns {p q : Item} (fuel : Nat) {d : CacheDeque K} (free : d.freeQueue = some p) :
    d.releaseAll fuel (some q) = none := by
  induction fuel generalizing d p q with
  | zero => rfl
  | succ fuel ih =>
    have next : (d.releaseItem q).next q = some p := by
      simp only [releaseItem,Function.update_self,free]
    simp only [releaseAll,next]
    exact ih rfl

section Rep
variable {d : CacheDeque K} {l f : List Item}

theorem repPerm (h : Rep d l f) : (l ++ f).Perm (List.range d.made) := by
  have nodup : (l ++ f).Nodup := List.nodup_append.mpr
    ⟨dllNodup h.linked,segNodup h.free,fun a mem b mem' same => h.apart b mem' (same ▸ mem)⟩
  refine (List.perm_ext_iff_of_nodup nodup List.nodup_range).mpr fun a => ?_
  rw [List.mem_append,List.mem_range]
  exact h.made a

theorem destroyEmpty (h : Rep d [] f) : Destroyed d := by
  have head : d.dequeHead = none := (dllEnds h.linked).1
  refine ⟨f.length + 1,f,?_,repPerm h⟩
  simp only [destroy,head,releaseAll,bind,Option.bind]
  exact deleteAllRuns h.free (Nat.lt_succ_self _)

/- Without free items the first turn is the last: its item is the only one deleted. -/
theorem destroyUnfree {i : Item} {fuel : Nat} {deleted : List Item} (h : Rep d (i :: l) [])
    (did : d.destroy fuel = some deleted) : deleted = [i] := by
  have head : d.dequeHead = some i := (dllEnds h.linked).1
  have free : d.freeQueue = none := h.free
  cases fuel with
  | zero => cases did
  | succ fuel =>
    simp only [destroy,head,releaseAll,releaseItem,Function.update_self,free,bind,Option.bind] at did
    cases fuel with
    | zero => cases did
    | succ fuel =>
      simp only [releaseAll,deleteAll,Function.update_self,Option.map_some] at did
      exact (Option.some.inj did).symm

theorem destroySingle {i : Item} (h : Rep d [i] []) : Destroyed d := by
  have head : d.dequeHead = some i := (dllEnds h.linked).1
  have free : d.freeQueue = none := h.free
  refine ⟨2,[i],?_,repPerm h⟩
  simp only [destroy,head,releaseAll,releaseItem,Function.update_self,free,bind,Option.bind,deleteAll,Option.map_some]

theorem destroyEndless {i j : Item} (head : d.dequeHead = some i) (free : d.freeQueue = some j) (fuel : Nat) :
    d.destroy fuel = none := by
  simp only [destroy,head,releaseAllRuns fuel free,bind,Option.bind]

theorem destroyedIff (h : Rep d l f) : Destroyed d ↔ Destroyable d := by
  obtain ⟨head,tail⟩ := dllEnds h.linked
  cases l with
  | nil => exact iff_of_true (destroyEmpty h) (.inl head)
  | cons i l =>
    cases f with
    | nil =>
      cases l with
      | nil => exact iff_of_true (destroySingle h) (.inr ⟨head.trans tail.symm,h.free⟩)
      | cons j l =>
        -- the second item is made and not deleted
        refine iff_of_false (fun ⟨fuel,deleted,did,perm⟩ => ?_) fun cond => ?_
        · have only := destroyUnfree h did
          have all := (repPerm h).length_eq.trans perm.length_eq.symm
          rw [only] at all
          simp only [List.length_append,List.length_cons,List.length_nil] at all
          omega
        · rcases cond with none' | ⟨same,_⟩
          · cases head.symm.trans none'
          · have last : (i :: j :: l).getLast? = some i := tail.symm.trans (same.symm.trans head)
            rw [List.getLast?_cons_cons] at last
            exact (List.nodup_cons.1 (dllNodup h.linked)).1 (List.mem_of_getLast? last)
    | cons j f =>
      refine iff_of_false (fun ⟨fuel,deleted,did,_⟩ => ?_) fun cond => ?_
      · cases (destroyEndless head h.free.1 fuel).symm.trans did
      · rcases cond with none' | ⟨_,free⟩
        · cases head.symm.trans none'
        · cases h.free.1.symm.trans free

end Rep

/- The items from head to tail. -/
def items (d : CacheDeque K) : List Item := walk d.next d.made d.dequeHead

theorem repItems {d : CacheDeque K} {l f : List Item} (h : Rep d l f) : d.items = l := by
  refine walkSeg h.linked.forth ?_
  have all := (repPerm h).length_eq
  rw [List.length_append,List.length_range] at all
  omega

end CacheDeque

/- A deque and the objects that have been inserted in it. -/
structure DequeUse (K : Type) where
  deque : CacheDeque K
  objs : Objects

namespace DequeUse
variable {K : Type}

def new (objs : Objects) : DequeUse K := ⟨.new,objs⟩

inductive Act (K : Type) where
  | insert (key : K) (o : Obj)
  | remove
  | removeItem (item : Item)
  deriving DecidableEq, Repr

def step (s : DequeUse K) : Act K → Option (DequeUse K)
  | .insert key o =>
    let (deque,objs) := s.deque.insert s.objs key o
    some ⟨deque,objs⟩
  | .remove =>
    match s.deque.remove with
    | none => some s
    | some (_,_,deque) => some ⟨deque,s.objs⟩
  | .removeItem item => some ⟨s.deque.removeItem (some item),s.objs⟩

/- An item that is removed is one of the deque's. -/
def Legal (s : DequeUse K) : Act K → Prop
  | .removeItem item => item ∈ s.deque.items
  | _ => True

instance (s : DequeUse K) : (a : Act K) → Decidable (Legal s a)
  | .insert _ _ => isTrue trivial
  | .remove => isTrue trivial
  | .removeItem item => inferInstanceAs (Decidable (item ∈ s.deque.items))

def Linked (s : DequeUse K) : Prop := ∃ l f, CacheDeque.Rep s.deque l f

theorem stepLinked {s t : DequeUse K} {a : Act K} (linked : s.Linked) (legal : Legal s a)
    (did : s.step a = some t) : t.Linked := by
  obtain ⟨l,f,h⟩ := linked
  cases a with
  | insert key o =>
    cases Option.some.inj did
    obtain ⟨i,f',_,rep,_⟩ := CacheDeque.insertRep h s.objs key o
    exact ⟨_,f',rep⟩
  | remove =>
    cases l with
    | nil =>
      simp only [step,CacheDeque.removeEmpty h] at did
      cases Option.some.inj did
      exact ⟨_,_,h⟩
    | cons i l =>
      obtain ⟨key,o,d,_,runs,rep,_⟩ := CacheDeque.removeRep h
      simp only [step,runs] at did
      cases Option.some.inj did
      exact ⟨_,_,rep⟩
  | removeItem item =>
    cases Option.some.inj did
    have mem : item ∈ l := CacheDeque.repItems h ▸ legal
    obtain ⟨l₁,l₂,rfl⟩ := List.append_of_mem mem
    exact ⟨_,_,CacheDeque.removeItemRep h⟩

theorem destroyedWhenOneListIsOut (objs : Objects) (acts : List (Act K))
    (legal : Along step Legal (new objs) acts) :
    Always step (fun s => s.deque.Destroyed ↔ s.deque.Destroyable) (new objs) acts := by
  refine alwaysMono (fun s linked => ?_)
    (alwaysOfInvariant (fun _ _ _ => stepLinked) ⟨[],[],CacheDeque.newRep⟩ legal)
  obtain ⟨l,f,h⟩ := linked
  exact CacheDeque.destroyedIff h

/- Three inserts, a removal from the end and one from the front. -/
theorem smallDeques : Always step (fun s => s.deque.Destroyed ↔ s.deque.Destroyable)
    (new fun _ => ⟨0,0,none,none,none⟩) [.insert 10 1,.insert 20 2,.insert 30 3,.removeItem 2,.remove] :=
  destroyedWhenOneListIsOut _ _ (by decide)

/- One of two items is free: the loop goes back and forth between them. -/
theorem freeItemTraps : ¬ ∀ (objs : Objects) (acts : List (Act Nat)), Along step Legal (new objs) acts →
    Always step (fun s => s.deque.Destroyed) (new objs) acts := by
  intro claim
  have always := claim (fun _ => ⟨0,0,none,none,none⟩) [.insert 10 1,.insert 20 2,.remove] (by decide)
  obtain ⟨s,ends,head,free⟩ : ∃ s, run step (new fun _ => ⟨0,0,none,none,none⟩)
      [.insert 10 1,.insert 20 2,.remove] = some s ∧ s.deque.dequeHead = some 1 ∧ s.deque.freeQueue = some 0 :=
    ⟨_,rfl,rfl,rfl⟩
  obtain ⟨fuel,deleted,did,_⟩ := alwaysAtEnd always ends
  cases (CacheDeque.destroyEndless head free fuel).symm.trans did

end DequeUse

end CuteNdk.Cache
