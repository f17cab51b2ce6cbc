import CuteNdk.SelectReactorNodes

/-! dispatch_io_events of the select reactor. It walks the three lists with the node after
the visited one at hand, while callbacks and handle_close register and remove handlers. A
node that is removed goes to the free list and has no handle. -/
namespace CuteNdk.Select
open Reactor (Handle EventHandler Mask HandleOpt HandlerRepository bitDisabled setBits clrBits)
open Lib (Seg segAppend segHead Along Always alwaysMono alwaysOfInvariant)

/- The list w is walked and itor is the node to visit next: at the head of the loop, in the
callback of p, and in the handle_close of its own remove_handler_i of h. aborted is an
assertion that failed. -/
inductive DispatchPc where
  | outside
  | walking (w : Which) (itor : Option Ptr)
  | inCallback (w : Which) (p : Ptr) (itor : Option Ptr)
  | removing (w : Which) (h : Handle) (itor : Option Ptr)
  | aborted
  deriving DecidableEq, Repr

/- ready are the descriptors select has left in rd_set_, wr_set_ and ex_set_. closing are the
calls of remove_handler_i, by callbacks, that are in handle_close. -/
structure SelectDispatch where
  reactor : SelectReactor
  ready : Which → List Handle
  pc : DispatchPc
  closing : List (Handle × Mask)

/- The mask that is removed when a callback returns less than 0. -/
def removeMask : Which → Mask
  | .rd => Mask.read
  | .wr => Mask.write
  | .ex => Mask.except

namespace SelectDispatch

def opened (r : SelectReactor) : SelectDispatch := ⟨r,fun _ => [],.outside,[]⟩

/- What an operation on the reactor leaves. -/
def changed (s : SelectDispatch) : Option (SelectReactor × Int) → SelectDispatch
  | some result => { s with reactor := result.1 }
  | none => { s with pc := .aborted }

/- Code that is not of dispatch_io_events runs. -/
def lent (s : SelectDispatch) : Bool :=
  match s.pc with
  | .outside | .inCallback _ _ _ | .removing _ _ _ => true
  | .walking _ _ | .aborted => false

/- The end of a list, and the next one. -/
def onward (r : SelectReactor) : Which → DispatchPc
  | .rd => .walking .wr (r.list .wr)
  | .wr => .walking .ex (r.list .ex)
  | .ex => .outside

/- One turn of the loop, up to the callback. -/
def visit (s : SelectDispatch) (w : Which) (p : Ptr) : SelectDispatch :=
  let itor := s.reactor.next p
  if s.reactor.handle p = invalidHandle then { s with pc := .aborted }
  else if s.reactor.handle p ∈ s.ready w ∧ s.reactor.rep.find (s.reactor.handle p) ≠ none then
    { s with pc := .inCallback w p itor }
  else { s with pc := .walking w itor }

/- remove_handler_i(p->handle, mask) up to the call of handle_close. -/
def removeOwn (s : SelectDispatch) (w : Which) (p : Ptr) (itor : Option Ptr) : SelectDispatch :=
  if s.reactor.rep.find (s.reactor.handle p) = none then { s with pc := .walking w itor }
  else { s with pc := .removing w (s.reactor.handle p) itor }

end SelectDispatch

/- remove and closed are the two sides of the handle_close in a remove_handler_i of somebody
else; enter, visit, returned and handleClosed are of dispatch_io_events. -/
inductive DispatchAct where
  | register (h : Handle) (eh : Option EventHandler) (m : Mask)
  | remove (h : Handle) (m : Mask)
  | closed (h : Handle) (m : Mask)
  | suspend (h : Handle)
  | resume (h : Handle)
  | enter (ready : Which → List Handle)
  | visit
  | returned (result : Int)
  | handleClosed

open SelectDispatch in
def SelectDispatch.step (s : SelectDispatch) : DispatchAct → Option SelectDispatch
  | .register h eh m => if s.lent then some (s.changed (s.reactor.registerHandlerI h eh m)) else none
  | .remove h m =>
    if s.lent then
      if s.reactor.rep.find h ≠ none ∧ bitDisabled m Mask.dontCall then some { s with closing := (h,m) :: s.closing }
      else some (s.changed (s.reactor.removeHandlerI h m))
    else none
  | .closed h m =>
    if s.lent ∧ (h,m) ∈ s.closing then
      some ({ s with closing := s.closing.erase (h,m) }.changed (s.reactor.removeHandlerI h m))
    else none
  | .suspend h => if s.lent then some (s.changed (s.reactor.suspendHandlerI h)) else none
  | .resume h => if s.lent then some (s.changed (s.reactor.resumeHandlerI h)) else none
  | .enter ready =>
    match s.pc with
    | .outside => some { s with ready := ready, pc := .walking .rd (s.reactor.list .rd) }
    | _ => none
  | .visit =>
    match s.pc with
    | .walking w none => some { s with pc := onward s.reactor w }
    | .walking w (some p) => some (s.visit w p)
    | _ => none
  | .returned result =>
    match s.pc with
    | .inCallback w p itor => some (if result < 0 then s.removeOwn w p itor else { s with pc := .walking w itor })
    | _ => none
  | .handleClosed =>
    match s.pc with
    | .removing w h itor => some ({ s with pc := .walking w itor }.changed (s.reactor.removeHandlerI h (removeMask w)))
    | _ => none

def OnList (r : SelectReactor) (w : Which) (p : Ptr) : Prop := ∃ l, Seg r.next (r.list w) l none ∧ p ∈ l

/- No assertion has failed, and the node that is visited is in the list that is walked, has
a handle and is not free. -/
def VisitsList (s : SelectDispatch) : Prop :=
  match s.pc with
  | .aborted => False
  | .walking w (some p) => OnList s.reactor w p ∧ s.reactor.handle p ≠ invalidHandle ∧
    ∃ free, Seg s.reactor.next s.reactor.freeNode free none ∧ p ∉ free
  | _ => True

/- The list that is walked and the node at hand. -/
def ahead (s : SelectDispatch) : Option (Which × Ptr) :=
  match s.pc with
  | .walking w (some q) | .inCallback w _ (some q) | .removing w _ (some q) => some (w,q)
  | _ => none

/- The handle an act gives another mask in the lists, and that mask. -/
def relists (s : SelectDispatch) : DispatchAct → Option (Handle × Mask)
  | .register h _ m => some (h,setBits (s.reactor.rep.mask h) m)
  | .remove h m => if bitDisabled m Mask.dontCall then none else some (h,clrBits (s.reactor.rep.mask h) m)
  | .closed h m => some (h,clrBits (s.reactor.rep.mask h) m)
  | .suspend h => if s.reactor.rep.suspended h then none else some (h,Mask.null)
  | .handleClosed =>
    match s.pc with
    | .removing w h _ => some (h,clrBits (s.reactor.rep.mask h) (removeMask w))
    | _ => none
  | _ => none

/- The handle of the node at hand stays in the list that is walked. -/
def LeavesNext (s : SelectDispatch) (a : DispatchAct) : Prop :=
  ∀ q ∈ ahead s, ∀ c ∈ relists s a, s.reactor.handle q.2 = c.1 → wants c.2 q.1 = true

instance (s : SelectDispatch) (a : DispatchAct) : Decidable (LeavesNext s a) := by
  unfold LeavesNext
  infer_instance

/- The node q is in the list w, for k. -/
def NodeAt (r : SelectReactor) (w : Which) (q : Ptr) (k : Handle) : Prop :=
  ∃ lists free, Chained r lists free ∧ q ∈ lists w ∧ r.handle q = k

theorem nullWants (w : Which) : wants Mask.null w = false := by
  cases w <;> decide

section Nodes
variable {r r' : SelectReactor} {w w' : Which} {q : Ptr} {h k : Handle} {z : Int}

/- Only a removal of k from w takes the node away. -/
theorem removeIfAt (at_ : NodeAt r w q k) {go : Bool} (did : r.removeIf go h w' = some r')
    (other : go = true → w = w' → k ≠ h) : NodeAt r' w q k := by
  obtain ⟨lists,free,c,mem,holds⟩ := at_
  unfold SelectReactor.removeIf at did
  split at did
  · rename_i both
    rcases removeUnlinks c both.1 h with ⟨_,same⟩ | ⟨l₁,a,l₂,nodes,atA,_,unlinks⟩
    · cases did.symm.trans same
      exact ⟨lists,free,c,mem,holds⟩
    · cases did.symm.trans unlinks
      have apart : q ≠ a := by
        rintro rfl
        by_cases here : w = w'
        · exact other both.2 here (holds.symm.trans atA)
        · have there : q ∈ lists w' := by
            rw [nodes]
            exact List.mem_append_right l₁ List.mem_cons_self
          exact listOff c here there mem
      refine ⟨_,_,(unlinkedHolds c nodes).1,?_,(Function.update_of_ne apart _ _).trans holds⟩
      by_cases here : w = w'
      · subst here
        rw [Function.update_self]
        rw [nodes] at mem
        simpa [apart] using mem
      · rw [Function.update_of_ne here]
        exact mem
  · cases Option.some.inj did
    exact ⟨lists,free,c,mem,holds⟩

theorem appendIfAt (at_ : NodeAt r w q k) {go : Bool} (did : r.appendIf go h w' = some (r',z)) : NodeAt r' w q k := by
  obtain ⟨lists,free,c,mem,holds⟩ := at_
  unfold SelectReactor.appendIf at did
  split at did
  · rcases appendTakes c w' h with ⟨_,same⟩ | ⟨_,takes⟩
    · cases did.symm.trans same
      exact ⟨lists,free,c,mem,holds⟩
    · obtain ⟨p,first,both⟩ := Option.map_eq_some_iff.1 (takes.symm.trans did)
      cases both
      obtain ⟨free,rfl⟩ := List.head?_eq_some_iff.1 first
      have apart : q ≠ p := fun eq => freeOff c List.mem_cons_self w (eq ▸ mem)
      refine ⟨_,free,(takenHolds c).1,?_,?_⟩
      · by_cases here : w = w'
        · subst here
          rw [Function.update_self]
          exact List.mem_cons_of_mem p mem
        · rw [Function.update_of_ne here]
          exact mem
      · exact (Function.update_of_ne apart _ _).trans ((Function.update_of_ne apart _ _).trans holds)
  · cases Option.some.inj did
    exact ⟨lists,free,c,mem,holds⟩

theorem optAt (at_ : NodeAt r w q k) {m : Mask} {opt : HandleOpt} (did : r.handleOptI h m opt = some (r',z))
    (stays : k = h → m = Mask.null ∨ opt ≠ .addMask → wants m w = true) : NodeAt r' w q k := by
  unfold SelectReactor.handleOptI at did
  by_cases null : m = Mask.null
  · have other : k ≠ h := fun eq => by
      have wanted := stays eq (.inl null)
      rw [null,nullWants] at wanted
      exact Bool.false_ne_true wanted
    simp only [null,if_true,bind,Option.bind_eq_some_iff] at did
    obtain ⟨r₁,did₁,r₂,did₂,r₃,did₃,last⟩ := did
    cases Option.some.inj last
    exact removeIfAt (removeIfAt (removeIfAt at_ did₁ fun _ _ => other) did₂ fun _ _ => other) did₃ fun _ _ => other
  · have notClr : (if opt = HandleOpt.clrMask then HandleOpt.setMask else opt) ≠ .clrMask := by
      cases opt <;> decide
    have other : ∀ w', (decide ((if opt = HandleOpt.clrMask then HandleOpt.setMask else opt) = .setMask) &&
        !wants m w') = true → w = w' → k ≠ h := by
      rintro w' go rfl eq
      simp only [Bool.and_eq_true,decide_eq_true_eq,Bool.not_eq_true'] at go
      have notAdd : opt ≠ .addMask := by
        rintro rfl
        exact absurd go.1 (by decide)
      exact Bool.false_ne_true (go.2.symm.trans (stays eq (.inr notAdd)))
    simp only [null,if_false,notClr,bind,Option.bind_eq_some_iff] at did
    obtain ⟨r₁,did₁,r₂,did₂,r₃,did₃,⟨r₄,z₄⟩,did₄,did⟩ := did
    have at₃ := removeIfAt (removeIfAt (removeIfAt at_ did₁ (other .rd)) did₂ (other .wr)) did₃ (other .ex)
    have at₄ := appendIfAt at₃ did₄
    split at did
    · cases Option.some.inj did
      exact at₄
    · obtain ⟨⟨r₅,z₅⟩,did₅,did⟩ := Option.bind_eq_some_iff.1 did
      have at₅ := appendIfAt at₄ did₅
      split at did
      · cases Option.some.inj did
        exact at₅
      · obtain ⟨⟨r₆,z₆⟩,did₆,did⟩ := Option.bind_eq_some_iff.1 did
        have at₆ := appendIfAt at₅ did₆
        split at did
        · cases Option.some.inj did
          exact at₆
        · cases Option.some.inj did
          exact at₆

/- The handler table is not looked at. -/
theorem repAt (at_ : NodeAt r w q k) (rep : HandlerRepository) : NodeAt { r with rep := rep } w q k := by
  obtain ⟨lists,free,c,mem,holds⟩ := at_
  exact ⟨lists,free,⟨c.list,c.freed,c.all⟩,mem,holds⟩

theorem registerAt (at_ : NodeAt r w q k) (bound : r.rep.find k ≠ none) {eh : Option EventHandler} {m : Mask}
    (did : r.registerHandlerI h eh m = some (r',z)) (stays : k = h → wants (setBits (r.rep.mask h) m) w = true) :
    NodeAt r' w q k := by
  unfold SelectReactor.registerHandlerI at did
  split at did
  · rename_i unbound
    have other : k ≠ h := fun eq => bound (eq ▸ unbound)
    dsimp only at did
    split at did
    · cases Option.some.inj did
      exact repAt at_ _
    · obtain ⟨⟨r₁,z₁⟩,opted,did⟩ := Option.bind_eq_some_iff.1 did
      have at₁ := optAt (repAt at_ _) opted fun eq => absurd eq other
      split at did
      · cases Option.some.inj did
        exact repAt at₁ _
      · cases Option.some.inj did
        exact at₁
  · exact optAt (repAt at_ _) did fun eq _ => stays eq

theorem removeAt (at_ : NodeAt r w q k) {m : Mask} (did : r.removeHandlerI h m = some (r',z))
    (stays : k = h → wants (clrBits (r.rep.mask h) m) w = true) : NodeAt r' w q k := by
  unfold SelectReactor.removeHandlerI at did
  split at did
  · cases Option.some.inj did
    exact at_
  · obtain ⟨⟨r₁,z₁⟩,opted,did⟩ := Option.bind_eq_some_iff.1 did
    have at₁ := optAt (repAt at_ _) opted fun eq _ => stays eq
    split at did
    · cases Option.some.inj did
      exact at₁
    · split at did
      · cases Option.some.inj did
        exact repAt at₁ _
      · cases Option.some.inj did
        exact at₁

theorem suspendAt (at_ : NodeAt r w q k) (did : r.suspendHandlerI h = some (r',z))
    (stays : k = h → r.rep.suspended h = true) : NodeAt r' w q k := by
  unfold SelectReactor.suspendHandlerI at did
  split at did
  · cases Option.some.inj did
    exact at_
  · split at did
    · cases Option.some.inj did
      exact at_
    · rename_i up
      obtain ⟨⟨r₁,z₁⟩,opted,did⟩ := Option.bind_eq_some_iff.1 did
      have at₁ := optAt at_ opted fun eq => absurd (stays eq) up
      split at did
      · cases Option.some.inj did
        exact at₁
      · cases Option.some.inj did
        exact repAt at₁ _

theorem resumeAt (at_ : NodeAt r w q k) (did : r.resumeHandlerI h = some (r',z)) : NodeAt r' w q k := by
  unfold SelectReactor.resumeHandlerI at did
  split at did
  · cases Option.some.inj did
    exact at_
  · split at did
    · cases Option.some.inj did
      exact at_
    · rename_i some_
      obtain ⟨⟨r₁,z₁⟩,opted,did⟩ := Option.bind_eq_some_iff.1 did
      have at₁ := optAt at_ opted fun _ null => absurd null (by simpa using some_)
      split at did
      · cases Option.some.inj did
        exact at₁
      · cases Option.some.inj did
        exact repAt at₁ _

theorem atList (at_ : NodeAt r w q k) : OnList r w q := by
  obtain ⟨lists,free,c,mem,_⟩ := at_
  exact ⟨lists w,c.list w,mem⟩

/- What a node of a list is, of the lists that are kept. -/
theorem listAt {n : Nat} {held : Which → List Handle} (kept : Kept n r held) (on : OnList r w q) :
    NodeAt r w q (r.handle q) ∧ r.rep.find (r.handle q) ≠ none := by
  obtain ⟨l,walk,mem⟩ := on
  obtain ⟨lists,free,c,same⟩ := kept.holds
  have isList := Lib.segUnique walk (c.list w)
  subst isList
  exact ⟨⟨lists,free,c,mem,rfl⟩,kept.bound w _ (same w ▸ List.mem_map_of_mem mem)⟩

end Nodes

/- The lists are kept, and the node at hand is in the list that is walked. -/
structure Walked (n : Nat) (s : SelectDispatch) : Prop where
  kept : ∃ held, Kept n s.reactor held
  fine : s.pc ≠ .aborted
  ahead : ∀ q ∈ ahead s, OnList s.reactor q.1 q.2

section Steps
variable {n : Nat} {s : SelectDispatch}

theorem changedWalked (d : Walked n s) {result : Option (SelectReactor × Int)} {r' : SelectReactor} {z : Int}
    {held : Which → List Handle} (did : result = some (r',z)) (kept : Kept n r' held)
    (stays : ∀ q ∈ ahead s, NodeAt s.reactor q.1 q.2 (s.reactor.handle q.2) →
      s.reactor.rep.find (s.reactor.handle q.2) ≠ none → NodeAt r' q.1 q.2 (s.reactor.handle q.2)) :
    Walked n (s.changed result) := by
  subst did
  obtain ⟨was,isKept⟩ := d.kept
  refine ⟨⟨held,kept⟩,d.fine,fun q mem => ?_⟩
  obtain ⟨at_,bound⟩ := listAt isKept (d.ahead q mem)
  exact atList (stays q mem at_ bound)

theorem aheadIs {q : Which × Ptr} (mem : q ∈ ahead s) : s.pc = .walking q.1 (some q.2) ∨
    (∃ p, s.pc = .inCallback q.1 p (some q.2)) ∨ ∃ h, s.pc = .removing q.1 h (some q.2) := by
  unfold ahead at mem
  split at mem
  · rename_i here
    cases Option.some.inj mem
    exact .inl here
  · rename_i p q' here
    cases Option.some.inj mem
    exact .inr (.inl ⟨p,here⟩)
  · rename_i h q' here
    cases Option.some.inj mem
    exact .inr (.inr ⟨h,here⟩)
  · cases mem

/- The walk goes on at a node of the list, or it ends. -/
theorem walkingWalked (d : Walked n s) {w : Which} {itor : Option Ptr} (ready : Which → List Handle)
    (on : ∀ q, itor = some q → OnList s.reactor w q) : Walked n { s with pc := .walking w itor, ready := ready } := by
  refine ⟨d.kept,DispatchPc.noConfusion,fun q mem => ?_⟩
  rcases aheadIs mem with here | ⟨p,here⟩ | ⟨h,here⟩
  · cases here
    exact on q.2 rfl
  · cases here
  · cases here

theorem headList (d : Walked n s) (w : Which) (q : Ptr) (first : s.reactor.list w = some q) : OnList s.reactor w q := by
  obtain ⟨held,kept⟩ := d.kept
  obtain ⟨lists,free,c,_⟩ := kept.holds
  have walk := c.list w
  have isHead := segHead walk
  rw [first] at isHead
  exact ⟨lists w,walk,List.mem_of_head? isHead.symm⟩

theorem nextList {r : SelectReactor} {w : Which} {p q : Ptr} (on : OnList r w p) (next : r.next p = some q) :
    OnList r w q := by
  obtain ⟨l,walk,mem⟩ := on
  obtain ⟨l₁,l₂,rfl⟩ := List.append_of_mem mem
  refine ⟨_,walk,List.mem_append_right l₁ (List.mem_cons_of_mem p ?_)⟩
  obtain ⟨m,_,rest⟩ := segAppend.1 walk
  have isHead := segHead rest.2
  rw [next] at isHead
  exact List.mem_of_head? isHead.symm

theorem listHandle (d : Walked n s) {w : Which} {p : Ptr} (on : OnList s.reactor w p) :
    s.reactor.handle p ≠ invalidHandle := by
  obtain ⟨held,kept⟩ := d.kept
  have low := (boundRange kept (listAt kept on).2).1
  intro eq
  rw [eq] at low
  exact absurd low (by decide)

theorem visitWalked (d : Walked n s) {w : Which} {p : Ptr} (on : OnList s.reactor w p) : Walked n (s.visit w p) := by
  unfold SelectDispatch.visit
  rw [if_neg (listHandle d on)]
  split
  · refine ⟨d.kept,DispatchPc.noConfusion,fun q mem => ?_⟩
    rcases aheadIs mem with here | ⟨p',here⟩ | ⟨h,here⟩
    · cases here
    · obtain ⟨rfl,_,next⟩ := DispatchPc.inCallback.inj here
      exact nextList on next
    · cases here
  · exact walkingWalked d s.ready fun q next => nextList on next

theorem stepWalked (d : Walked n s) {a : DispatchAct} (leaves : LeavesNext s a) {t : SelectDispatch}
    (did : s.step a = some t) : Walked n t := by
  obtain ⟨held,kept⟩ := d.kept
  cases a with
  | register h eh m =>
    obtain ⟨_,next⟩ := Option.ite_none_right_eq_some.1 did
    cases Option.some.inj next
    obtain ⟨r',z,held',ran,kept'⟩ := registerKept kept h eh m
    exact changedWalked d ran kept' fun q mem at_ bound => registerAt at_ bound ran fun eq =>
      leaves q mem (h,setBits (s.reactor.rep.mask h) m) rfl eq
  | remove h m =>
    obtain ⟨_,next⟩ := Option.ite_none_right_eq_some.1 did
    split at next
    · cases Option.some.inj next
      exact ⟨⟨held,kept⟩,d.fine,d.ahead⟩
    · rename_i now
      cases Option.some.inj next
      obtain ⟨r',z,held',ran,kept'⟩ := removeKept kept h m
      refine changedWalked d ran kept' fun q mem at_ bound => removeAt at_ ran fun eq => ?_
      have silent : ¬ bitDisabled m Mask.dontCall = true := fun calls => now ⟨eq ▸ bound,calls⟩
      exact leaves q mem (h,clrBits (s.reactor.rep.mask h) m) (by simp [relists,silent]) eq
  | closed h m =>
    obtain ⟨_,next⟩ := Option.ite_none_right_eq_some.1 did
    cases Option.some.inj next
    obtain ⟨r',z,held',ran,kept'⟩ := removeKept kept h m
    have d' : Walked n { s with closing := s.closing.erase (h,m) } := ⟨⟨held,kept⟩,d.fine,d.ahead⟩
    exact changedWalked d' ran kept' fun q mem at_ _ => removeAt at_ ran fun eq =>
      leaves q mem (h,clrBits (s.reactor.rep.mask h) m) rfl eq
  | suspend h =>
    obtain ⟨_,next⟩ := Option.ite_none_right_eq_some.1 did
    cases Option.some.inj next
    obtain ⟨r',z,held',ran,kept'⟩ := suspendKept kept h
    refine changedWalked d ran kept' fun q mem at_ _ => suspendAt at_ ran fun eq => ?_
    by_contra up
    have wanted := leaves q mem (h,Mask.null) (by simp [relists,up]) eq
    exact Bool.false_ne_true ((nullWants q.1).symm.trans wanted)
  | resume h =>
    obtain ⟨_,next⟩ := Option.ite_none_right_eq_some.1 did
    cases Option.some.inj next
    obtain ⟨r',z,held',ran,kept'⟩ := resumeKept kept h
    exact changedWalked d ran kept' fun q mem at_ _ => resumeAt at_ ran
  | enter ready =>
    simp only [SelectDispatch.step] at did
    split at did
    · cases Option.some.inj did
      exact walkingWalked d ready (headList d .rd)
    · cases did
  | visit =>
    simp only [SelectDispatch.step] at did
    split at did
    · rename_i w here
      cases Option.some.inj did
      cases w with
      | rd => exact walkingWalked d s.ready (headList d .wr)
      | wr => exact walkingWalked d s.ready (headList d .ex)
      | ex =>
        refine ⟨⟨held,kept⟩,DispatchPc.noConfusion,fun q mem => ?_⟩
        cases mem
    · rename_i w p here
      cases Option.some.inj did
      exact visitWalked d (d.ahead (w,p) (by simp [ahead,here]))
    · cases did
  | returned result =>
    simp only [SelectDispatch.step] at did
    split at did
    · rename_i w p itor here
      have on : ∀ q, itor = some q → OnList s.reactor w q := fun q next =>
        d.ahead (w,q) (by simp [ahead,here,next])
      cases Option.some.inj did
      split
      · unfold SelectDispatch.removeOwn
        split
        · exact walkingWalked d s.ready on
        · refine ⟨⟨held,kept⟩,DispatchPc.noConfusion,fun q mem => ?_⟩
          rcases aheadIs mem with here' | ⟨p',here'⟩ | ⟨h,here'⟩
          · cases here'
          · cases here'
          · cases here'
            exact on q.2 rfl
      · exact walkingWalked d s.ready on
    · cases did
  | handleClosed =>
    simp only [SelectDispatch.step] at did
    split at did
    · rename_i w h itor here
      have on : ∀ q, itor = some q → OnList s.reactor w q := fun q next =>
        d.ahead (w,q) (by simp [ahead,here,next])
      cases Option.some.inj did
      obtain ⟨r',z,held',ran,kept'⟩ := removeKept kept h (removeMask w)
      refine changedWalked (walkingWalked d s.ready on) ran kept' fun q mem at_ _ => removeAt at_ ran fun eq => ?_
      rcases aheadIs mem with here' | ⟨p',here'⟩ | ⟨h',here'⟩
      · cases here'
        exact leaves q (by simp [ahead,here]) (h,clrBits (s.reactor.rep.mask h) (removeMask q.1)) (by simp [relists,here]) eq
      · cases here'
      · cases here'
    · cases did

/- So the node that is visited is where it should be. -/
theorem walkedVisits (d : Walked n s) : VisitsList s := by
  unfold VisitsList
  split
  · rename_i here
    exact d.fine here
  · rename_i w p here
    have on := d.ahead (w,p) (by simp [ahead,here])
    refine ⟨on,listHandle d on,?_⟩
    obtain ⟨held,kept⟩ := d.kept
    obtain ⟨⟨lists,free,c,mem,_⟩,_⟩ := listAt kept on
    exact ⟨free,c.freed,listFree c mem⟩
  · trivial

end Steps

/- While no step takes the handle of the node at hand out of the list that is walked, in
runs of any length after open_i every visited node is in its list. -/
theorem visitsWhileNextStays {fdSetSize : Nat} {notifyHandle : Handle} {notifyHandler : EventHandler}
    {r : SelectReactor} (opens : SelectReactor.openI fdSetSize notifyHandle notifyHandler = some (r,0))
    (acts : List DispatchAct) (leaves : Along SelectDispatch.step LeavesNext (SelectDispatch.opened r) acts) :
    Always SelectDispatch.step VisitsList (SelectDispatch.opened r) acts := by
  obtain ⟨held,kept⟩ := openedKept opens
  have start : Walked fdSetSize (SelectDispatch.opened r) :=
    ⟨⟨held,kept⟩,DispatchPc.noConfusion,fun q mem => by cases mem⟩
  exact alwaysMono (fun _ d => walkedVisits d)
    (alwaysOfInvariant (fun _ _ _ d leaves did => stepWalked d leaves did) start leaves)

/- A set of four descriptors, 3 for the notify handler. -/
def four : SelectReactor := ((SelectReactor.openI 4 3 0).get (by decide)).1

theorem fourOpens : SelectReactor.openI 4 3 0 = some (four,0) := rfl

/- Handlers 1 and 2 for the descriptors 1 and 2, both ready; the list has 1 in front of 2. -/
def bothReady : List DispatchAct :=
  [.register 2 (some 2) Mask.read,.register 1 (some 1) Mask.read,.enter (fun w => if w = .rd then [1,2] else []),.visit]

/- The callback of 1 removes 1. -/
theorem selfRemovalVisits : Always SelectDispatch.step VisitsList (SelectDispatch.opened four)
    (bothReady ++ [.remove 1 (Mask.read ||| Mask.dontCall),.returned 0,.visit,.returned 0,.visit,.visit,.visit]) :=
  visitsWhileNextStays fourOpens _ (by decide)

/- The callback of 1 removes 2, whose node is at hand. -/
theorem nextRemovalMisled : ¬ ∀ acts, Always SelectDispatch.step VisitsList (SelectDispatch.opened four) acts := by
  intro claim
  have always := claim (bothReady ++ [.remove 2 (Mask.read ||| Mask.dontCall),.returned 0,.visit])
  obtain ⟨s,ends,aborted⟩ : ∃ s, Lib.run SelectDispatch.step (SelectDispatch.opened four)
      (bothReady ++ [.remove 2 (Mask.read ||| Mask.dontCall),.returned 0,.visit]) = some s ∧ s.pc = .aborted :=
    ⟨_,rfl,by decide⟩
  have visits := Lib.alwaysAtEnd always ends
  simp only [VisitsList,aborted] at visits

end CuteNdk.Select
