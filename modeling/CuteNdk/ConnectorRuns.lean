import CuteNdk.Connector
import Mathlib.Data.List.Basic

/-! What connector keeps, whatever order connects, events, timeouts and the owners of the
svc_handlers come in. Inside a call one svc_handler may be in hand, not answered yet and
with no handler of its own in the reactor, and one nonblocking_connect_handler dying. -/
namespace CuteNdk.Connector
open Reactor (Handle EventHandler Mask UnixReactor InterestSet HandlerRepository linux registerHandlerI removeHandlerI bitEnabled)
open Lib State

/- Whom the table calls for a descriptor, and for what. -/
def Bound (s : State) (h : Handle) (e : EventHandler) (m : Mask) : Prop :=
  s.reactor.rep.find h = some e ∧ s.reactor.rep.mask h = m

def Connecting (s : State) (v : EventHandler) : Prop := ∃ peer, s.objects v = some (.svc peer .connecting)

structure Sound (hand dying : Option EventHandler) (s : State) : Prop where
  old : ∀ e o, s.objects e = some o → e < s.made
  givenOld : ∀ v ∈ s.given, v < s.made
  fresh : ∀ e, s.made ≤ e → s.answers e = 0
  given : ∀ v peer p, s.objects v = some (.svc peer p) → v ∈ s.given
  open_ : ∀ v h p, s.objects v = some (.svc (some h) p) → s.sockets h = true
  one : ∀ v w h p q, s.objects v = some (.svc (some h) p) → s.objects w = some (.svc (some h) q) → v = w
  /- A connect handler has its svc_handler, its place in the table and its timer. -/
  pending : ∀ n t sh, s.objects n = some (.connect t sh) → dying = some n ∧ t = none ∧ sh = none ∨
    ∃ v h, sh = some v ∧ hand ≠ some v ∧ s.objects v = some (.svc (some h) .connecting) ∧ Bound s h n Mask.connect ∧
      ∀ t' ∈ t, s.timers t' = some n
  waited : ∀ v peer, s.objects v = some (.svc peer .connecting) → hand = some v ∨
    ∃ n t, s.objects n = some (.connect t (some v))
  /- Nobody is in the table, or has a timer, that is gone. -/
  bound : ∀ h e, s.reactor.rep.find h = some e →
    (∃ t v, s.objects e = some (.connect t (some v)) ∧ s.objects v = some (.svc (some h) .connecting)) ∧
      s.reactor.rep.mask h = Mask.connect ∨
    (∃ p, p ≠ .connecting ∧ s.objects e = some (.svc (some h) p)) ∧ s.reactor.rep.mask h = Mask.read
  timers : ∀ t n, s.timers t = some n → ∃ sh, s.objects n = some (.connect (some t) sh)
  /- A svc_handler is answered once, when its connect is no longer under way. -/
  unanswered : ∀ v ∈ s.given, hand = some v ∨ Connecting s v → s.answers v = 0
  answered : ∀ v ∈ s.given, hand ≠ some v → ¬Connecting s v → s.answers v = 1

section Table
variable {r : UnixReactor InterestSet} {h : Handle} {e : EventHandler} {m : Mask}

/- The table with one handle's entry taken out. -/
structure Cleared (r r' : HandlerRepository) (h : Handle) : Prop where
  gone : r'.find h = none
  others : ∀ h', h' ≠ h → r'.find h' = r.find h' ∧ r'.mask h' = r.mask h'

theorem removeBound (found : r.rep.find h = some e) (some_ : r.rep.mask h = Mask.connect ∨ r.rep.mask h = Mask.read) :
    (removeHandlerI linux id r h allAndDontCall).2 = 0 ∧
      Cleared r.rep (removeHandlerI linux id r h allAndDontCall).1.rep h := by
  have bound : r.rep.find h ≠ none := by
    rw [found]
    exact nofun
  have range := HandlerRepository.findRange bound
  have all : Reactor.clrBits (r.rep.mask h) allAndDontCall = Mask.null := by
    rcases some_ with same | same <;> rw [same] <;> decide
  constructor
  · simp only [removeHandlerI,if_neg bound,id,ite_self,if_neg fun h : _ ∧ _ => bound h.2,all,ne_eq,not_true,if_false,
      Reactor.linuxClrMask]
  · rw [Reactor.removeUnbinds bound all]
    refine ⟨(HandlerRepository.putSame _ range _).1,fun h' other => ?_⟩
    obtain ⟨find,mask,_⟩ := HandlerRepository.putOther r.rep other ⟨(r.rep.handlers h).suspended,none,Mask.null⟩
    exact ⟨find,mask⟩

theorem removeAbsent (absent : r.rep.find h = none) (m : Mask) : removeHandlerI linux id r h m = (r,-1) := if_pos absent

/- The table with one handle's entry put in. -/
structure Filled (r r' : HandlerRepository) (h : Handle) (e : EventHandler) (m : Mask) : Prop where
  here : r'.find h = some e ∧ r'.mask h = m
  others : ∀ h', h' ≠ h → r'.find h' = r.find h' ∧ r'.mask h' = r.mask h'

theorem linuxAdds (k : InterestSet) (h : Handle) (m : Mask) : (Reactor.handleOptI linux k h m .addMask).2 = 0 := by
  cases present : k h <;> simp [Reactor.handleOptI,linux,present]

theorem registerAbsent (absent : r.rep.find h = none) (range : r.rep.handleInRange h) (m : Mask) :
    (registerHandlerI linux r h (some e) m).2 = 0 ∧ Filled r.rep (registerHandlerI linux r h (some e) m).1.rep h e m := by
  have adds := linuxAdds r.kernel h m
  have registers : registerHandlerI linux r h (some e) m =
      (⟨r.rep.put h { r.rep.handlers h with eventHandler := some e, mask := m },
        (Reactor.handleOptI linux r.kernel h m .addMask).1⟩,0) := by
    simp only [registerHandlerI,if_pos absent,HandlerRepository.bind,if_pos range]
    revert adds
    rcases Reactor.handleOptI linux r.kernel h m .addMask with ⟨k,result⟩
    rintro rfl
    rfl
  rw [registers]
  refine ⟨rfl,⟨(HandlerRepository.putSame _ range _).1,(HandlerRepository.putSame _ range _).2.1⟩,fun h' other => ?_⟩
  obtain ⟨find,mask,_⟩ := HandlerRepository.putOther r.rep other { r.rep.handlers h with eventHandler := some e, mask := m }
  exact ⟨find,mask⟩

theorem registerOutside (absent : r.rep.find h = none) (outside : ¬r.rep.handleInRange h) (m : Mask) :
    registerHandlerI linux r h (some e) m = (r,-1) := by
  simp only [registerHandlerI,if_pos absent,HandlerRepository.bind,if_neg outside]

end Table
section Objects
variable {s : State} {hand dying : Option EventHandler} {e n v : EventHandler} {h : Handle} {t : TimerId}

theorem connectingAt (k : Sound hand dying s) (found : s.reactor.rep.find h = some e) {w : EventHandler} {p : Phase}
    (peer : s.objects w = some (.svc (some h) p)) (mine : hand = some w ∨ p ≠ .connecting) :
    e = w ∧ p ≠ .connecting := by
  rcases k.bound h e found with ⟨⟨t,v,connect,svc⟩,_⟩ | ⟨⟨q,ended,svc⟩,_⟩
  · have same := k.one v w h _ _ svc peer
    subst same
    rw [svc] at peer
    cases peer
    rcases mine with mine | ended
    · rcases k.pending e t (some v) connect with ⟨_,_,none_⟩ | ⟨v',_,sh,other,_⟩
      · cases none_
      · cases sh
        exact absurd mine other
    · exact absurd rfl ended
  · have same := k.one e w h _ _ svc peer
    subst same
    rw [svc] at peer
    cases peer
    exact ⟨rfl,ended⟩

/- A svc_handler that is made has no answer and nobody in the table. -/
theorem makeKeeps (k : Sound none dying s) (peer : Option Handle) (fresh : ∀ h ∈ peer, s.sockets h = false) :
    Sound (some s.made) dying (s.make peer) ∧ (s.make peer).objects s.made = some (.svc peer .connecting) := by
  have new : ∀ {e o}, (s.make peer).objects e = some o → e = s.made ∧ o = .svc peer .connecting ∨ s.objects e = some o := by
    intro e o here
    rcases updateSome.1 here with ⟨rfl,rfl⟩ | ⟨_,here⟩
    · exact .inl ⟨rfl,rfl⟩
    · exact .inr here
  have old : ∀ {e o}, s.objects e = some o → (s.make peer).objects e = some o := fun {e o} here =>
    updateSome.2 (.inr ⟨Nat.ne_of_lt (k.old e o here),here⟩)
  have apart : ∀ {w h p}, s.objects w = some (.svc (some h) p) → peer ≠ some h := by
    rintro w h p there rfl
    cases (k.open_ w h p there).symm.trans (fresh h rfl)
  refine ⟨⟨fun e o here => ?_,fun v mem => ?_,fun e later => k.fresh e (Nat.le_of_succ_le later),fun v q p here => ?_,
    fun v h p here => ?_,fun v w h p q first second => ?_,fun n t sh here => ?_,fun v q here => ?_,fun h e found => ?_,fun t n timer => ?_,fun v mem un => ?_,
    fun v mem other ended => ?_⟩,updateSome.2 (.inl ⟨rfl,rfl⟩)⟩
  · rcases new here with ⟨rfl,_⟩ | here
    · exact Nat.lt_succ_self _
    · exact Nat.lt_succ_of_lt (k.old e o here)
  · rcases List.mem_cons.1 mem with rfl | mem
    · exact Nat.lt_succ_self _
    · exact Nat.lt_succ_of_lt (k.givenOld v mem)
  · rcases new here with ⟨rfl,_⟩ | here
    · exact List.mem_cons_self
    · exact List.mem_cons_of_mem _ (k.given v q p here)
  · rcases new here with ⟨_,same⟩ | here
    · cases same
      simp [State.make]
    · have was := k.open_ v h p here
      simp [State.make,was]
  · rcases new first with ⟨rfl,same⟩ | was
    · cases same
      rcases new second with ⟨rfl,_⟩ | was
      · rfl
      · exact absurd rfl (apart was)
    · rcases new second with ⟨rfl,same⟩ | was'
      · cases same
        exact absurd rfl (apart was)
      · exact k.one v w h p q was was'
  · rcases new here with ⟨_,same⟩ | was
    · cases same
    · rcases k.pending n t sh was with idle | ⟨v,h,rfl,_,svc,bound,timer⟩
      · exact .inl idle
      · exact .inr ⟨v,h,rfl,fun same => Nat.ne_of_lt (k.old v _ svc) (Option.some.inj same).symm,old svc,bound,timer⟩
  · rcases new here with ⟨rfl,_⟩ | was
    · exact .inl rfl
    · rcases k.waited v q was with none_ | ⟨n,t,connect⟩
      · cases none_
      · exact .inr ⟨n,t,old connect⟩
  · rcases k.bound h e found with ⟨⟨t,v,connect,svc⟩,mask⟩ | ⟨⟨p,ended,svc⟩,mask⟩
    · exact .inl ⟨⟨t,v,old connect,old svc⟩,mask⟩
    · exact .inr ⟨⟨p,ended,old svc⟩,mask⟩
  · obtain ⟨sh,connect⟩ := k.timers t n timer
    exact ⟨sh,old connect⟩
  · rcases List.mem_cons.1 mem with rfl | mem
    · exact k.fresh _ (Nat.le_refl _)
    · refine k.unanswered v mem (.inr ?_)
      rcases un with same | ⟨q,here⟩
      · exact absurd (Option.some.inj same) (Nat.ne_of_gt (k.givenOld v mem))
      · rcases new here with ⟨rfl,_⟩ | was
        · exact absurd rfl (Nat.ne_of_gt (k.givenOld _ mem))
        · exact ⟨q,was⟩
  · rcases List.mem_cons.1 mem with rfl | mem
    · exact absurd rfl other
    · refine k.answered v mem nofun fun both => ended ?_
      obtain ⟨q,was⟩ := both
      exact ⟨q,old was⟩

/- What is left when a svc_handler is gone. -/
structure Gone (s s' : State) (v : EventHandler) : Prop where
  same : s'.made = s.made ∧ s'.given = s.given ∧ s'.answers = s.answers
  objects : s'.objects = Function.update s.objects v none
  timers : s'.timers = fun t => if s.timers t = some v then none else s.timers t
  sockets : ∀ w h p, w ≠ v → s.objects w = some (.svc (some h) p) → s'.sockets h = true
  table : ∀ h e, s'.reactor.rep.find h = some e → e ≠ v ∧ s.reactor.rep.find h = some e ∧ s'.reactor.rep.mask h = s.reactor.rep.mask h
  bound : ∀ h e m, e ≠ v → Bound s h e m → Bound s' h e m

theorem destroyGone (k : Sound hand dying s) {peer : Option Handle} {p : Phase} (there : s.objects v = some (.svc peer p))
    (mine : hand = some v ∨ p ≠ .connecting) : ∃ s', s.destroy v = some s' ∧ Gone s s' v := by
  have elsewhere : ∀ h, s.reactor.rep.find h = some v → peer = some h := by
    intro h found
    rcases k.bound h v found with ⟨⟨t,w,connect,_⟩,_⟩ | ⟨⟨q,_,svc⟩,_⟩
    · cases there.symm.trans connect
    · cases there.symm.trans svc
      rfl
  unfold State.destroy
  rw [there]
  cases peer with
  | none =>
    refine ⟨_,rfl,⟨rfl,rfl,rfl⟩,rfl,rfl,fun w h p _ => k.open_ w h p,fun h e found => ⟨?_,found,rfl⟩,fun _ _ _ _ bound => bound⟩
    rintro rfl
    cases elsewhere h found
  | some h =>
    have other : ∀ {e}, s.reactor.rep.find h = some e → e = v := fun found => (connectingAt k found there mine).1
    have cleared : Cleared s.reactor.rep (removeHandlerI linux id s.reactor h allAndDontCall).1.rep h := by
      cases found : s.reactor.rep.find h with
      | none =>
        rw [removeAbsent found]
        exact ⟨found,fun _ _ => ⟨rfl,rfl⟩⟩
      | some e =>
        refine (removeBound found ?_).2
        rcases k.bound h e found with ⟨_,mask⟩ | ⟨_,mask⟩
        · exact .inl mask
        · exact .inr mask
    refine ⟨_,rfl,⟨rfl,rfl,rfl⟩,rfl,rfl,fun w h' q off svc => ?_,fun h' e found => ?_,fun h' e m off bound => ?_⟩
    · change Function.update s.sockets h false h' = true
      rw [Function.update_of_ne]
      · exact k.open_ w h' q svc
      · rintro rfl
        exact off (k.one w v h' q p svc there)
    · have apart : h' ≠ h := by
        rintro rfl
        cases cleared.gone.symm.trans found
      obtain ⟨find,mask⟩ := cleared.others h' apart
      refine ⟨?_,find.symm.trans found,mask⟩
      rintro rfl
      exact apart (Option.some.inj (elsewhere h' (find.symm.trans found))).symm
    · have apart : h' ≠ h := by
        rintro rfl
        exact off (other bound.1)
      obtain ⟨find,mask⟩ := cleared.others h' apart
      exact ⟨find.trans bound.1,mask.trans bound.2⟩

theorem goneKeeps (k : Sound hand dying s) {s' : State} (g : Gone s s' v) {peer : Option Handle} {p : Phase}
    (there : s.objects v = some (.svc peer p)) (mine : hand = some v ∨ p ≠ .connecting) : Sound hand dying s' := by
  obtain ⟨made,given,answers⟩ := g.same
  have still : ∀ {e o}, s'.objects e = some o ↔ e ≠ v ∧ s.objects e = some o := by
    intro e o
    rw [g.objects]
    exact updateNone
  have waits : ∀ {n t w}, s.objects n = some (.connect t (some w)) → n ≠ v ∧ w ≠ v := by
    intro n t w connect
    refine ⟨?_,?_⟩
    · rintro rfl
      cases there.symm.trans connect
    · rintro rfl
      rcases k.pending n t _ connect with ⟨_,_,none_⟩ | ⟨w',h,sh,other,svc,_⟩
      · cases none_
      · cases sh
        cases there.symm.trans svc
        exact mine.elim other fun ended => ended rfl
  have connecting : ∀ {w}, Connecting s' w ↔ w ≠ v ∧ Connecting s w := by
    intro w
    constructor
    · rintro ⟨q,here⟩
      exact ⟨(still.1 here).1,q,(still.1 here).2⟩
    · rintro ⟨off,q,here⟩
      exact ⟨q,still.2 ⟨off,here⟩⟩
  refine ⟨fun e o here => made ▸ k.old e o (still.1 here).2,fun w mem => made ▸ k.givenOld w (given ▸ mem),
    fun e later => answers ▸ k.fresh e (made ▸ later),fun w q p here => given ▸ k.given w q p (still.1 here).2,
    fun w h q here => g.sockets w h q (still.1 here).1 (still.1 here).2,
    fun w u h p q first second => k.one w u h p q (still.1 first).2 (still.1 second).2,fun n t sh here => ?_,
    fun w q here => ?_,fun h e found => ?_,fun t n timer => ?_,fun w mem un => ?_,fun w mem other ended => ?_⟩
  · obtain ⟨off,was⟩ := still.1 here
    rcases k.pending n t sh was with idle | ⟨w,h,rfl,other,svc,bound,timer⟩
    · exact .inl idle
    · refine .inr ⟨w,h,rfl,other,still.2 ⟨(waits was).2,svc⟩,g.bound h n _ off bound,fun t' mem => ?_⟩
      rw [g.timers]
      simp only [timer t' mem]
      exact if_neg fun same => off (Option.some.inj same)
  · obtain ⟨off,was⟩ := still.1 here
    refine (k.waited w q was).imp id fun ⟨n,t,connect⟩ => ⟨n,t,still.2 ⟨(waits connect).1,connect⟩⟩
  · obtain ⟨off,was,mask⟩ := g.table h e found
    rw [mask]
    rcases k.bound h e was with ⟨⟨t,w,connect,svc⟩,mask⟩ | ⟨⟨q,ended,svc⟩,mask⟩
    · exact .inl ⟨⟨t,w,still.2 ⟨off,connect⟩,still.2 ⟨(waits connect).2,svc⟩⟩,mask⟩
    · exact .inr ⟨⟨q,ended,still.2 ⟨off,svc⟩⟩,mask⟩
  · rw [g.timers] at timer
    simp only at timer
    split at timer
    · cases timer
    · obtain ⟨sh,connect⟩ := k.timers t n timer
      refine ⟨sh,still.2 ⟨?_,connect⟩⟩
      rintro rfl
      cases there.symm.trans connect
  · rw [answers]
    exact k.unanswered w (given ▸ mem) (un.imp id fun c => (connecting.1 c).2)
  · rw [answers]
    refine k.answered w (given ▸ mem) other fun c => ended (connecting.2 ⟨?_,c⟩)
    rintro rfl
    obtain ⟨q,svc⟩ := c
    cases there.symm.trans svc
    exact mine.elim other fun ended => ended rfl

/- The one in hand has its answer. -/
theorem answerKeeps (k : Sound (some v) dying s) (mem : v ∈ s.given) (ended : ¬Connecting s v) :
    Sound none dying (s.answer v) := by
  refine ⟨k.old,k.givenOld,fun e later => ?_,k.given,k.open_,k.one,fun n t sh here => ?_,fun w q here => ?_,k.bound,k.timers,
    fun w there un => ?_,fun w there _ off => ?_⟩
  · have other : e ≠ v := by
      rintro rfl
      exact absurd later (Nat.not_le.2 (k.givenOld _ mem))
    exact (Function.update_of_ne other _ _).trans (k.fresh e later)
  · exact (k.pending n t sh here).imp id fun ⟨w,h,sh,_,rest⟩ => ⟨w,h,sh,nofun,rest⟩
  · rcases k.waited w q here with same | waits
    · cases same
      exact absurd ⟨q,here⟩ ended
    · exact .inr waits
  · have connecting : Connecting s w := un.resolve_left nofun
    have other : w ≠ v := by
      rintro rfl
      exact ended connecting
    exact (Function.update_of_ne other _ _).trans (k.unanswered w there (.inr connecting))
  · by_cases same : w = v
    · subst same
      have before := k.unanswered w mem (.inl rfl)
      change Function.update s.answers w (s.answers w + 1) w = 1
      rw [Function.update_self,before]
    · exact (Function.update_of_ne same _ _).trans (k.answered w there (fun is => same (Option.some.inj is).symm) off)

theorem closeKeeps (k : Sound (some v) dying s) {peer : Option Handle} {p : Phase} (there : s.objects v = some (.svc peer p)) :
    ∃ s', s.close v = some s' ∧ Sound none dying s' ∧ s'.objects = Function.update s.objects v none := by
  obtain ⟨s',destroys,gone⟩ := destroyGone k there (.inl rfl)
  have kept := goneKeeps k gone there (.inl rfl)
  refine ⟨s'.answer v,?_,answerKeeps kept ?_ ?_,gone.objects⟩
  · unfold State.close
    rw [destroys]
    rfl
  · rw [gone.same.2.1]
    exact k.given v peer p there
  · rintro ⟨q,here⟩
    rw [gone.objects] at here
    exact (updateNone.1 here).1 rfl

theorem phaseKeeps (k : Sound (some v) dying s) {peer : Option Handle} {p q : Phase} (there : s.objects v = some (.svc peer q))
    (ended : p ≠ .connecting) : Sound (some v) dying (s.put v (.svc peer p)) := by
  have new : ∀ {e o}, (s.put v (.svc peer p)).objects e = some o → e = v ∧ o = .svc peer p ∨ e ≠ v ∧ s.objects e = some o := by
    intro e o here
    exact (updateSome.1 here).imp (fun both => ⟨both.1,both.2.symm⟩) id
  have off : ∀ {e o}, e ≠ v → s.objects e = some o → (s.put v (.svc peer p)).objects e = some o := fun other here =>
    updateSome.2 (.inr ⟨other,here⟩)
  have waits : ∀ {n t sh}, s.objects n = some (.connect t sh) → n ≠ v := by
    rintro n t sh connect rfl
    cases there.symm.trans connect
  have connecting : ∀ {w}, Connecting (s.put v (.svc peer p)) w → w ≠ v ∧ Connecting s w := by
    rintro w ⟨q,here⟩
    rcases new here with ⟨_,same⟩ | ⟨other,was⟩
    · cases same
      exact absurd rfl ended
    · exact ⟨other,q,was⟩
  refine ⟨fun e o here => ?_,k.givenOld,k.fresh,fun w q' p' here => ?_,fun w h p' here => ?_,fun w u h p' q' first second => ?_,
    fun n t sh here => ?_,fun w q' here => ?_,fun h e found => ?_,fun t n timer => ?_,
    fun w mem un => k.unanswered w mem (un.imp id fun c => (connecting c).2),fun w mem other off' => ?_⟩
  · rcases new here with ⟨rfl,_⟩ | ⟨_,was⟩
    · exact k.old _ _ there
    · exact k.old e o was
  · rcases new here with ⟨rfl,_⟩ | ⟨_,was⟩
    · exact k.given _ _ _ there
    · exact k.given w q' p' was
  · rcases new here with ⟨rfl,same⟩ | ⟨_,was⟩
    · cases same
      exact k.open_ _ h q there
    · exact k.open_ w h p' was
  · rcases new first with ⟨rfl,same⟩ | ⟨_,was⟩
    · cases same
      rcases new second with ⟨rfl,_⟩ | ⟨_,was⟩
      · rfl
      · exact k.one _ u h q q' there was
    · rcases new second with ⟨rfl,same⟩ | ⟨_,was'⟩
      · cases same
        exact k.one w _ h p' q was there
      · exact k.one w u h p' q' was was'
  · rcases new here with ⟨_,same⟩ | ⟨_,was⟩
    · cases same
    · rcases k.pending n t sh was with idle | ⟨w,h,rfl,other,svc,rest⟩
      · exact .inl idle
      · exact .inr ⟨w,h,rfl,other,off (fun same => other (same ▸ rfl)) svc,rest⟩
  · obtain ⟨other,q'',was⟩ := connecting ⟨q',here⟩
    exact (k.waited w q'' was).imp id fun ⟨n,t,connect⟩ => ⟨n,t,off (waits connect) connect⟩
  · rcases k.bound h e found with ⟨⟨t,w,connect,svc⟩,mask⟩ | ⟨⟨q',ended',svc⟩,mask⟩
    · refine .inl ⟨⟨t,w,off (waits connect) connect,off ?_ svc⟩,mask⟩
      rintro rfl
      exact (connectingAt k found svc (.inl rfl)).2 rfl
    · by_cases same : e = v
      · subst same
        rw [there] at svc
        cases svc
        exact .inr ⟨⟨p,ended,updateSome.2 (.inl ⟨rfl,rfl⟩)⟩,mask⟩
      · exact .inr ⟨⟨q',ended',off same svc⟩,mask⟩
  · obtain ⟨sh,connect⟩ := k.timers t n timer
    exact ⟨sh,off (waits connect) connect⟩
  · have same : w ≠ v := fun is => other (is ▸ rfl)
    refine k.answered w mem other fun ⟨q',c⟩ => off' ⟨q',off same c⟩

/- What the open of a svc_handler in hand does to the table. -/
theorem registerTable (k : Sound (some v) dying s) {p : Phase} (there : s.objects v = some (.svc (some h) p)) :
    Filled s.reactor.rep (registerHandlerI linux s.reactor h (some v) Mask.read).1.rep h v Mask.read ∨
      (registerHandlerI linux s.reactor h (some v) Mask.read).1.rep = s.reactor.rep := by
  cases found : s.reactor.rep.find h with
  | none =>
    by_cases range : s.reactor.rep.handleInRange h
    · exact .inl (registerAbsent found range Mask.read).2
    · rw [registerOutside found range]
      exact .inr rfl
  | some e =>
    have bound : s.reactor.rep.find h ≠ none := by
      rw [found]
      exact nofun
    have range := HandlerRepository.findRange bound
    obtain ⟨rfl,_⟩ := connectingAt k found there (.inl rfl)
    have mask : s.reactor.rep.mask h = Mask.read := by
      rcases k.bound h e found with ⟨⟨t,w,connect,_⟩,_⟩ | ⟨_,mask⟩
      · cases there.symm.trans connect
      · exact mask
    rw [Reactor.registerBound bound]
    refine .inl ⟨⟨?_,?_⟩,fun h' other => ?_⟩
    · rw [(HandlerRepository.putSame _ range _).1,← found]
      exact (HandlerRepository.entryFind range).1.symm
    · rw [(HandlerRepository.putSame _ range _).2.1,mask]
      change Reactor.setBits Mask.read Mask.read = Mask.read
      decide
    · obtain ⟨find,mask,_⟩ := HandlerRepository.putOther s.reactor.rep other
        { s.reactor.rep.handlers h with mask := Reactor.setBits (s.reactor.rep.mask h) Mask.read }
      exact ⟨find,mask⟩

theorem registerKeeps (k : Sound (some v) dying s) {p : Phase} (there : s.objects v = some (.svc (some h) p))
    (ended : p ≠ .connecting) :
    Sound (some v) dying { s with reactor := (registerHandlerI linux s.reactor h (some v) Mask.read).1 } := by
  rcases registerTable k there with filled | same
  · refine ⟨k.old,k.givenOld,k.fresh,k.given,k.open_,k.one,fun n t sh here => ?_,k.waited,fun h' e found => ?_,k.timers,
      k.unanswered,k.answered⟩
    · rcases k.pending n t sh here with idle | ⟨w,h',rfl,other,svc,bound,timer⟩
      · exact .inl idle
      · have apart : h' ≠ h := by
          rintro rfl
          exact other (k.one w v h' _ _ svc there ▸ rfl)
        obtain ⟨find,mask⟩ := filled.others h' apart
        exact .inr ⟨w,h',rfl,other,svc,⟨find.trans bound.1,mask.trans bound.2⟩,timer⟩
    · by_cases apart : h' = h
      · subst apart
        cases filled.here.1.symm.trans found
        exact .inr ⟨⟨p,ended,there⟩,filled.here.2⟩
      · obtain ⟨find,mask⟩ := filled.others h' apart
        have was := k.bound h' e (find.symm.trans found)
        rw [← mask] at was
        exact was
  · refine ⟨k.old,k.givenOld,k.fresh,k.given,k.open_,k.one,fun n t sh here => ?_,k.waited,fun h' e found => ?_,k.timers,
      k.unanswered,k.answered⟩
    · rcases k.pending n t sh here with idle | ⟨w,h',sh,other,svc,bound,timer⟩
      · exact .inl idle
      · refine .inr ⟨w,h',sh,other,svc,?_,timer⟩
        unfold Bound
        simp only [same]
        exact bound
    · simp only [same] at found ⊢
      exact k.bound h' e found

theorem openKeeps (k : Sound (some v) dying s) {q : Phase} (there : s.objects v = some (.svc (some h) q)) (o : Opening) :
    ∃ s', s.openSvc v o = some s' ∧ Sound (some v) dying s' ∧
      s'.objects = Function.update s.objects v (some (.svc (some h) .opened)) := by
  have opened := phaseKeeps k there (show Phase.opened ≠ .connecting from nofun)
  have here : (s.put v (.svc (some h) .opened)).objects v = some (.svc (some h) .opened) := Function.update_self _ _ _
  unfold State.openSvc
  rw [there]
  simp only
  split
  · exact ⟨_,rfl,registerKeeps opened here nofun,rfl⟩
  · exact ⟨_,rfl,opened,rfl⟩

/- An opened svc_handler is answered, or closed when its open fails. -/
theorem settleKeeps (k : Sound (some v) dying s) (there : s.objects v = some (.svc (some h) .opened)) (fails : Prop)
    [Decidable fails] : ∃ s', (if fails then s.close v else some (s.answer v)) = some s' ∧ Sound none dying s' ∧
      ∀ e, e ≠ v → s'.objects e = s.objects e := by
  split
  · obtain ⟨s',closes,kept,objects⟩ := closeKeeps k there
    exact ⟨s',closes,kept,fun e other => by rw [objects,Function.update_of_ne other]⟩
  · refine ⟨_,rfl,answerKeeps k (k.given v _ _ there) ?_,fun _ _ => rfl⟩
    rintro ⟨peer,here⟩
    cases there.symm.trans here

/- A connect that goes on: its handler is in the table, and its timer if it has one. -/
theorem pendKeeps (k : Sound (some v) none s) (there : s.objects v = some (.svc (some h) .connecting))
    {reactor : UnixReactor InterestSet} (filled : Filled s.reactor.rep reactor.rep h s.made Mask.connect)
    (timer : Option TimerId) {timers : TimerId → Option EventHandler}
    (scheduled : ∀ t n, timers t = some n ↔ t ∈ timer ∧ n = s.made ∨ s.timers t = some n) :
    Sound none none { s.put s.made (.connect timer (some v)) with
      made := s.made + 1, reactor := reactor, timers := timers } := by
  have new : ∀ {e o}, Function.update s.objects s.made (some (.connect timer (some v))) e = some o →
      e = s.made ∧ o = .connect timer (some v) ∨ s.objects e = some o := by
    intro e o here
    exact (updateSome.1 here).imp (fun both => ⟨both.1,both.2.symm⟩) fun both => both.2
  have old : ∀ {e o}, s.objects e = some o →
      Function.update s.objects s.made (some (.connect timer (some v))) e = some o := fun here =>
    updateSome.2 (.inr ⟨Nat.ne_of_lt (k.old _ _ here),here⟩)
  have apart : ∀ {h' e}, s.reactor.rep.find h' = some e → h' ≠ h := by
    rintro h' e found rfl
    exact (connectingAt k found there (.inl rfl)).2 rfl
  have connecting : ∀ {w}, (∃ q, Function.update s.objects s.made (some (.connect timer (some v))) w = some (.svc q .connecting)) ↔
      Connecting s w := by
    intro w
    constructor
    · rintro ⟨q,here⟩
      rcases new here with ⟨_,same⟩ | was
      · cases same
      · exact ⟨q,was⟩
    · rintro ⟨q,here⟩
      exact ⟨q,old here⟩
  refine ⟨fun e o here => ?_,fun w mem => Nat.lt_succ_of_lt (k.givenOld w mem),fun e later => k.fresh e (Nat.le_of_succ_le later),
    fun w q p here => ?_,fun w h' p here => ?_,fun w u h' p q first second => ?_,fun n t sh here => ?_,fun w q here => ?_,
    fun h' e found => ?_,fun t n timed => ?_,fun w mem un => ?_,fun w mem _ off => ?_⟩
  · rcases new here with ⟨rfl,_⟩ | was
    · exact Nat.lt_succ_self _
    · exact Nat.lt_succ_of_lt (k.old e o was)
  · rcases new here with ⟨_,same⟩ | was
    · cases same
    · exact k.given w q p was
  · rcases new here with ⟨_,same⟩ | was
    · cases same
    · exact k.open_ w h' p was
  · rcases new first with ⟨_,same⟩ | was
    · cases same
    · rcases new second with ⟨_,same⟩ | was'
      · cases same
      · exact k.one w u h' p q was was'
  · rcases new here with ⟨rfl,same⟩ | was
    · cases same
      exact .inr ⟨v,h,rfl,nofun,old there,filled.here,fun t' mem => (scheduled t' _).2 (.inl ⟨mem,rfl⟩)⟩
    · rcases k.pending n t sh was with ⟨none_,_⟩ | ⟨w,h',rfl,_,svc,bound,timed⟩
      · cases none_
      · obtain ⟨find,mask⟩ := filled.others h' (apart bound.1)
        exact .inr ⟨w,h',rfl,nofun,old svc,⟨find.trans bound.1,mask.trans bound.2⟩,
          fun t' mem => (scheduled t' n).2 (.inr (timed t' mem))⟩
  · obtain ⟨q',was⟩ := connecting.1 ⟨q,here⟩
    rcases k.waited w q' was with same | ⟨n,t,connect⟩
    · cases same
      exact .inr ⟨s.made,timer,updateSome.2 (.inl ⟨rfl,rfl⟩)⟩
    · exact .inr ⟨n,t,old connect⟩
  · by_cases same : h' = h
    · subst same
      cases filled.here.1.symm.trans found
      exact .inl ⟨⟨timer,v,updateSome.2 (.inl ⟨rfl,rfl⟩),old there⟩,filled.here.2⟩
    · obtain ⟨find,mask⟩ := filled.others h' same
      change _ ∧ reactor.rep.mask h' = _ ∨ _ ∧ reactor.rep.mask h' = _
      rw [mask]
      rcases k.bound h' e (find.symm.trans found) with ⟨⟨t,w,connect,svc⟩,mask⟩ | ⟨⟨p,ended,svc⟩,mask⟩
      · exact .inl ⟨⟨t,w,old connect,old svc⟩,mask⟩
      · exact .inr ⟨⟨p,ended,old svc⟩,mask⟩
  · rcases (scheduled t n).1 timed with ⟨mem,rfl⟩ | was
    · rw [Option.mem_def.1 mem]
      exact ⟨some v,updateSome.2 (.inl ⟨rfl,rfl⟩)⟩
    · obtain ⟨sh,connect⟩ := k.timers t n was
      exact ⟨sh,old connect⟩
  · exact k.unanswered w mem (.inr (connecting.1 (un.resolve_left nofun)))
  · refine k.answered w mem (fun same => ?_) fun c => off (connecting.2 c)
    cases same
    exact off (connecting.2 ⟨some h,there⟩)

theorem nonblockingKeeps (k : Sound (some v) none s) (there : s.objects v = some (.svc (some h) .connecting))
    (range : s.reactor.rep.handleInRange h) {timeout : Timeout} (scheduled : timeout ≠ .after none)
    (fresh : ∀ t, timeout = .after (some t) → s.timers t = none) :
    ∃ s', s.nonblockingConnect v h timeout = some s' ∧ Sound none none s' := by
  have absent : s.reactor.rep.find h = none := by
    by_contra found
    obtain ⟨e,found⟩ := Option.ne_none_iff_exists'.1 found
    exact (connectingAt k found there (.inl rfl)).2 rfl
  obtain ⟨done,filled⟩ := registerAbsent (e := s.made) absent range Mask.connect
  unfold State.nonblockingConnect
  simp only [State.put,done,if_neg (show ¬(0 : Int) = -1 by decide)]
  cases timeout with
  | never | zero =>
    exact ⟨_,rfl,pendKeeps k there filled none fun t n => (or_iff_right fun both => by cases both.1).symm⟩
  | after timer =>
    cases timer with
    | none => exact absurd rfl scheduled
    | some t =>
      simp only [Function.update_idem]
      refine ⟨_,rfl,pendKeeps k there filled (some t) fun t' n => updateSome.trans (or_congr ?_ ?_)⟩
      · rw [Option.mem_some_iff,eq_comm (a := t),eq_comm (a := n)]
      · refine and_iff_right_of_imp fun timed => ?_
        rintro rfl
        cases (fresh t' rfl).symm.trans timed

/- A connect handler out of the table and without its timer; its svc_handler is in hand. -/
theorem takenKeeps (k : Sound none none s) {timer : Option TimerId} (there : s.objects n = some (.connect timer (some v)))
    (svc : s.objects v = some (.svc (some h) .connecting)) (bound : Bound s h n Mask.connect)
    {reactor : UnixReactor InterestSet} (cleared : Cleared s.reactor.rep reactor.rep h)
    (timers : TimerId → Option EventHandler) (canceled : ∀ t m, timers t = some m ↔ s.timers t = some m ∧ m ≠ n) :
    Sound (some v) (some n) { s with
      objects := Function.update s.objects n (some (.connect none none)), reactor := reactor, timers := timers } := by
  have new : ∀ {e o}, Function.update s.objects n (some (.connect none none)) e = some o →
      e = n ∧ o = .connect none none ∨ e ≠ n ∧ s.objects e = some o := by
    intro e o here
    exact (updateSome.1 here).imp (fun both => ⟨both.1,both.2.symm⟩) id
  have off : ∀ {e o}, e ≠ n → s.objects e = some o → Function.update s.objects n (some (.connect none none)) e = some o :=
    fun other here => updateSome.2 (.inr ⟨other,here⟩)
  have notSvc : ∀ {w q p}, s.objects w = some (.svc q p) → w ≠ n := by
    rintro w q p here rfl
    cases there.symm.trans here
  have connecting : ∀ {w}, (∃ q, Function.update s.objects n (some (.connect none none)) w = some (.svc q .connecting)) ↔
      Connecting s w := by
    intro w
    constructor
    · rintro ⟨q,here⟩
      rcases new here with ⟨_,same⟩ | ⟨_,was⟩
      · cases same
      · exact ⟨q,was⟩
    · rintro ⟨q,here⟩
      exact ⟨q,off (notSvc here) here⟩
  -- each svc_handler has one connect handler, since the table has one for its socket
  have single : ∀ {m t}, s.objects m = some (.connect t (some v)) → m = n := by
    intro m t connect
    rcases k.pending m t _ connect with ⟨none_,_⟩ | ⟨w,h',sh,_,svc',bound',_⟩
    · cases none_
    · cases sh
      cases svc.symm.trans svc'
      exact Option.some.inj (bound'.1.symm.trans bound.1)
  refine ⟨fun e o here => ?_,k.givenOld,k.fresh,fun w q p here => ?_,fun w h' p here => ?_,fun w u h' p q first second => ?_,
    fun m t sh here => ?_,fun w q here => ?_,fun h' e found => ?_,fun t m timed => ?_,fun w mem un => ?_,fun w mem other ended => ?_⟩
  · rcases new here with ⟨rfl,_⟩ | ⟨_,was⟩
    · exact k.old _ _ there
    · exact k.old e o was
  · rcases new here with ⟨_,same⟩ | ⟨_,was⟩
    · cases same
    · exact k.given w q p was
  · rcases new here with ⟨_,same⟩ | ⟨_,was⟩
    · cases same
    · exact k.open_ w h' p was
  · rcases new first with ⟨_,same⟩ | ⟨_,was⟩
    · cases same
    · rcases new second with ⟨_,same⟩ | ⟨_,was'⟩
      · cases same
      · exact k.one w u h' p q was was'
  · rcases new here with ⟨rfl,same⟩ | ⟨other,was⟩
    · cases same
      exact .inl ⟨rfl,rfl,rfl⟩
    · rcases k.pending m t sh was with ⟨none_,_⟩ | ⟨w,h',rfl,_,svc',bound',timed⟩
      · cases none_
      · have apart : h' ≠ h := by
          rintro rfl
          exact other (Option.some.inj (bound'.1.symm.trans bound.1))
        obtain ⟨find,mask⟩ := cleared.others h' apart
        refine .inr ⟨w,h',rfl,fun same => ?_,off (notSvc svc') svc',⟨find.trans bound'.1,mask.trans bound'.2⟩,
          fun t' mem => (canceled t' m).2 ⟨timed t' mem,other⟩⟩
        cases same
        exact other (single was)
  · obtain ⟨q',was⟩ := connecting.1 ⟨q,here⟩
    by_cases same : w = v
    · exact .inl (same ▸ rfl)
    · rcases k.waited w q' was with none_ | ⟨m,t,connect⟩
      · cases none_
      · refine .inr ⟨m,t,off ?_ connect⟩
        rintro rfl
        cases there.symm.trans connect
        exact same rfl
  · have apart : h' ≠ h := by
      rintro rfl
      cases cleared.gone.symm.trans found
    obtain ⟨find,mask⟩ := cleared.others h' apart
    change _ ∧ reactor.rep.mask h' = _ ∨ _ ∧ reactor.rep.mask h' = _
    rw [mask]
    rcases k.bound h' e (find.symm.trans found) with ⟨⟨t,w,connect,svc'⟩,mask⟩ | ⟨⟨p,ended,svc'⟩,mask⟩
    · refine .inl ⟨⟨t,w,off ?_ connect,off (notSvc svc') svc'⟩,mask⟩
      rintro rfl
      cases there.symm.trans connect
      cases svc.symm.trans svc'
      exact apart rfl
    · exact .inr ⟨⟨p,ended,off (notSvc svc') svc'⟩,mask⟩
  · obtain ⟨was,other⟩ := (canceled t m).1 timed
    obtain ⟨sh,connect⟩ := k.timers t m was
    exact ⟨sh,off other connect⟩
  · rcases un with same | c
    · cases same
      exact k.unanswered v mem (.inr ⟨some h,svc⟩)
    · exact k.unanswered w mem (.inr (connecting.1 c))
  · exact k.answered w mem nofun fun c => ended (connecting.2 c)

/- nonblocking_connect_handler::close. -/
theorem closeConnectKeeps (k : Sound none none s) {timer : Option TimerId}
    (there : s.objects n = some (.connect timer (some v))) :
    ∃ s' h, s.closeConnect n = some (s',some v,0) ∧ Sound (some v) (some n) s' ∧ Bound s h n Mask.connect ∧
      s'.objects = Function.update s.objects n (some (.connect none none)) ∧
      s'.objects v = some (.svc (some h) .connecting) := by
  obtain ⟨h,svc,bound,timed⟩ : ∃ h, s.objects v = some (.svc (some h) .connecting) ∧ Bound s h n Mask.connect ∧
      ∀ t ∈ timer, s.timers t = some n := by
    rcases k.pending n timer _ there with ⟨none_,_⟩ | ⟨w,h,sh,_,svc,bound,timed⟩
    · cases none_
    · cases sh
      exact ⟨h,svc,bound,timed⟩
  have other : v ≠ n := by
    rintro rfl
    cases there.symm.trans svc
  have still : Function.update s.objects n (some (.connect none none)) v = some (.svc (some h) .connecting) :=
    updateSome.2 (.inr ⟨other,svc⟩)
  obtain ⟨done,cleared⟩ := removeBound bound.1 (.inl bound.2)
  unfold State.closeConnect
  rw [there]
  cases timer with
  | none =>
    refine ⟨_,h,?_,takenKeeps k there svc bound cleared s.timers fun t m => ?_,bound,rfl,still⟩
    · simp only [State.unregister,State.put,still,Option.map_some,done]
      rfl
    · refine (and_iff_left_of_imp fun was => ?_).symm
      rintro rfl
      obtain ⟨sh,connect⟩ := k.timers t _ was
      cases there.symm.trans connect
  | some t =>
    have mine := timed t rfl
    refine ⟨_,h,?_,takenKeeps k there svc bound cleared (Function.update s.timers t none) fun t' m => ?_,bound,
      rfl,still⟩
    · simp only [State.unregister,State.put,mine,reduceCtorEq,if_false,Function.update_idem,still,Option.map_some,done]
    · rw [updateNone]
      constructor
      · rintro ⟨apart,was⟩
        refine ⟨was,?_⟩
        rintro rfl
        obtain ⟨sh,connect⟩ := k.timers t' _ was
        cases there.symm.trans connect
        exact apart rfl
      · rintro ⟨was,off⟩
        refine ⟨?_,was⟩
        rintro rfl
        exact off (Option.some.inj (was.symm.trans mine))

theorem deleteKeeps (k : Sound none (some n) s) (there : s.objects n = some (.connect none none)) :
    ∃ s', s.deleteConnect n 0 = some s' ∧ Sound none none s' ∧ s'.objects = Function.update s.objects n none := by
  have still : ∀ {e o}, Function.update s.objects n none e = some o ↔ e ≠ n ∧ s.objects e = some o := updateNone
  have svcs : ∀ {w q p}, s.objects w = some (.svc q p) → Function.update s.objects n none w = some (.svc q p) := by
    intro w q p here
    refine still.2 ⟨?_,here⟩
    rintro rfl
    cases there.symm.trans here
  have waits : ∀ {m t w}, s.objects m = some (.connect t (some w)) →
      Function.update s.objects n none m = some (.connect t (some w)) := by
    intro m t w connect
    refine still.2 ⟨?_,connect⟩
    rintro rfl
    cases there.symm.trans connect
  refine ⟨_,if_pos rfl,⟨fun e o here => k.old e o (still.1 here).2,k.givenOld,k.fresh,
    fun w q p here => k.given w q p (still.1 here).2,fun w h p here => k.open_ w h p (still.1 here).2,
    fun w u h p q first second => k.one w u h p q (still.1 first).2 (still.1 second).2,fun m t sh here => ?_,
    fun w q here => ?_,fun h e found => ?_,fun t m timed => ?_,
    fun w mem un => k.unanswered w mem (un.imp id fun ⟨q,here⟩ => ⟨q,(still.1 here).2⟩),
    fun w mem other ended => k.answered w mem other fun ⟨q,here⟩ => ended ⟨q,svcs here⟩⟩,rfl⟩
  · obtain ⟨other,was⟩ := still.1 here
    rcases k.pending m t sh was with ⟨same,_⟩ | ⟨w,h,rfl,_,svc,rest⟩
    · exact absurd (Option.some.inj same).symm other
    · exact .inr ⟨w,h,rfl,nofun,svcs svc,rest⟩
  · rcases k.waited w q (still.1 here).2 with none_ | ⟨m,t,connect⟩
    · cases none_
    · exact .inr ⟨m,t,waits connect⟩
  · rcases k.bound h e found with ⟨⟨t,w,connect,svc⟩,mask⟩ | ⟨⟨p,ended,svc⟩,mask⟩
    · exact .inl ⟨⟨t,w,waits connect,svcs svc⟩,mask⟩
    · exact .inr ⟨⟨p,ended,svcs svc⟩,mask⟩
  · obtain ⟨sh,connect⟩ := k.timers t m timed
    refine ⟨sh,still.2 ⟨?_,connect⟩⟩
    rintro rfl
    cases there.symm.trans connect

/- A timer that has expired is nobody's any more. -/
theorem expiredKeeps (k : Sound none none s) {t : TimerId} (timed : s.timers t = some n) :
    ∃ v, s.objects n = some (.connect (some t) (some v)) ∧
      Sound none none ({ s with timers := Function.update s.timers t none }.put n (.connect none (some v))) := by
  obtain ⟨sh,there⟩ := k.timers t n timed
  obtain ⟨v,h,rfl,_,svc,bound,_⟩ := (k.pending n (some t) sh there).resolve_left fun both => nomatch both.1
  have new : ∀ {e o}, Function.update s.objects n (some (.connect none (some v))) e = some o →
      e = n ∧ o = .connect none (some v) ∨ e ≠ n ∧ s.objects e = some o := by
    intro e o here
    exact (updateSome.1 here).imp (fun both => ⟨both.1,both.2.symm⟩) id
  have svcs : ∀ {w q p}, s.objects w = some (.svc q p) →
      Function.update s.objects n (some (.connect none (some v))) w = some (.svc q p) := by
    intro w q p here
    refine updateSome.2 (.inr ⟨?_,here⟩)
    rintro rfl
    cases there.symm.trans here
  have was : ∀ {w q p}, Function.update s.objects n (some (.connect none (some v))) w = some (.svc q p) →
      s.objects w = some (.svc q p) := by
    intro w q p here
    rcases new here with ⟨_,same⟩ | ⟨_,was⟩
    · cases same
    · exact was
  have waits : ∀ {m t w}, s.objects m = some (.connect t (some w)) →
      ∃ t, Function.update s.objects n (some (.connect none (some v))) m = some (.connect t (some w)) := by
    intro m t w connect
    by_cases same : m = n
    · subst same
      cases there.symm.trans connect
      exact ⟨none,updateSome.2 (.inl ⟨rfl,rfl⟩)⟩
    · exact ⟨t,updateSome.2 (.inr ⟨same,connect⟩)⟩
  refine ⟨v,there,⟨fun e o here => ?_,k.givenOld,k.fresh,fun w q p here => k.given w q p (was here),
    fun w h p here => k.open_ w h p (was here),fun w u h p q first second => k.one w u h p q (was first) (was second),
    fun m t' sh here => ?_,fun w q here => ?_,fun h' e found => ?_,fun t' m timed' => ?_,
    fun w mem un => k.unanswered w mem (un.imp id fun ⟨q,here⟩ => ⟨q,was here⟩),
    fun w mem other ended => k.answered w mem other fun ⟨q,here⟩ => ended ⟨q,svcs here⟩⟩⟩
  · rcases new here with ⟨rfl,_⟩ | ⟨_,was⟩
    · exact k.old _ _ there
    · exact k.old e o was
  · rcases new here with ⟨rfl,same⟩ | ⟨other,was⟩
    · cases same
      exact .inr ⟨v,h,rfl,nofun,svcs svc,bound,nofun⟩
    · obtain ⟨w,h',rfl,_,svc',bound',timed'⟩ := (k.pending m t' sh was).resolve_left fun both => nomatch both.1
      refine .inr ⟨w,h',rfl,nofun,svcs svc',bound',fun t'' mem => updateNone.2 ⟨?_,timed' t'' mem⟩⟩
      rintro rfl
      exact other (Option.some.inj ((timed' t'' mem).symm.trans timed))
  · rcases k.waited w q (was here) with none_ | ⟨m,t',connect⟩
    · cases none_
    · obtain ⟨t',connect⟩ := waits connect
      exact .inr ⟨m,t',connect⟩
  · rcases k.bound h' e found with ⟨⟨t',w,connect,svc'⟩,mask⟩ | ⟨⟨p,ended,svc'⟩,mask⟩
    · obtain ⟨t',connect⟩ := waits connect
      exact .inl ⟨⟨t',w,connect,svcs svc'⟩,mask⟩
    · exact .inr ⟨⟨p,ended,svcs svc'⟩,mask⟩
  · obtain ⟨apart,was'⟩ := updateNone.1 timed'
    obtain ⟨sh,connect⟩ := k.timers t' m was'
    refine ⟨sh,updateSome.2 (.inr ⟨?_,connect⟩)⟩
    rintro rfl
    cases there.symm.trans connect
    exact apart rfl

theorem inputKeeps (k : Sound none none s) {timer : Option TimerId} (there : s.objects n = some (.connect timer (some v))) :
    ∃ s', s.handleInput n = some s' ∧ Sound none none s' ∧ ∀ e o, s'.objects e = some o → e ≠ v ∧ s.objects e = some o := by
  obtain ⟨s₁,h,closes,taken,_,objects₁,svc⟩ := closeConnectKeeps k there
  obtain ⟨s₂,closed,kept,objects₂⟩ := closeKeeps taken svc
  have apart : n ≠ v := by
    rintro rfl
    rw [objects₁,Function.update_self] at svc
    cases svc
  have still : s₂.objects n = some (.connect none none) := by
    rw [objects₂,Function.update_of_ne apart,objects₁,Function.update_self]
  obtain ⟨s₃,deletes,sound,objects₃⟩ := deleteKeeps kept still
  refine ⟨s₃,?_,sound,fun e o here => ?_⟩
  · simp only [State.handleInput,closes,bind,Option.bind,closed]
    exact deletes
  · rw [objects₃,objects₂,objects₁] at here
    obtain ⟨other,here⟩ := updateNone.1 here
    obtain ⟨off,here⟩ := updateNone.1 here
    rw [Function.update_of_ne other] at here
    exact ⟨off,here⟩

theorem putSelf {o : Object} (there : s.objects v = some o) : s.put v o = s := by
  unfold State.put
  rw [← there,Function.update_eq_self]

theorem initKeeps (k : Sound (some v) dying s) (there : s.objects v = some (.svc (some h) .connecting)) (remote : Bool)
    (o : Opening) : ∃ s', s.initSvcHandler v h remote o = some s' ∧ Sound none dying s' ∧
      ∀ e, e ≠ v → s'.objects e = s.objects e := by
  unfold State.initSvcHandler
  rw [there]
  simp only [putSelf there]
  cases remote with
  | false =>
    obtain ⟨s',closes,kept,objects⟩ := closeKeeps k there
    exact ⟨s',closes,kept,fun e other => by rw [objects,Function.update_of_ne other]⟩
  | true =>
    obtain ⟨s₁,opens,opened,objects⟩ := openKeeps k there o
    have here : s₁.objects v = some (.svc (some h) .opened) := objects ▸ Function.update_self _ _ _
    obtain ⟨s₂,settles,kept,others⟩ := settleKeeps opened here (o.result ≠ 0)
    refine ⟨s₂,?_,kept,fun e other => by rw [others e other,objects,Function.update_of_ne other]⟩
    rw [if_pos rfl,opens]
    rw [ite_not] at settles
    exact settles

theorem outputKeeps (k : Sound none none s) {timer : Option TimerId} (there : s.objects n = some (.connect timer (some v)))
    (found : s.reactor.rep.find h = some n) (remote : Bool) (o : Opening) :
    ∃ s', s.handleOutput n h remote o = some s' ∧ Sound none none s' := by
  obtain ⟨s₁,h',closes,taken,bound,objects,svc⟩ := closeConnectKeeps k there
  have dying : s₁.objects n = some (.connect none none) := objects ▸ Function.update_self _ _ _
  have same : h' = h := by
    rcases k.bound h n found with ⟨⟨t,w,connect,svc'⟩,_⟩ | ⟨⟨p,_,svc'⟩,_⟩
    · cases there.symm.trans connect
      rcases k.bound h' n bound.1 with ⟨⟨t,w,connect,svc''⟩,_⟩ | ⟨⟨p,_,svc''⟩,_⟩
      · cases there.symm.trans connect
        cases svc'.symm.trans svc''
        rfl
      · cases there.symm.trans svc''
    · cases there.symm.trans svc'
  subst same
  obtain ⟨s₂,inits,kept,others⟩ := initKeeps taken svc remote o
  have still : s₂.objects n = some (.connect none none) := by
    rw [others n,dying]
    rintro rfl
    cases dying.symm.trans svc
  obtain ⟨s₃,deletes,sound,_⟩ := deleteKeeps kept still
  refine ⟨s₃,?_,sound⟩
  simp only [State.handleOutput,closes,bind,Option.bind,inits]
  exact deletes

theorem tellKeeps (k : Sound (some v) dying s) (there : s.objects v = some (.svc (some h) .connecting)) (failed : Bool) :
    ∃ s', s.tellTimeout v failed = some s' ∧ Sound none dying s' ∧ ∀ e, e ≠ v → s'.objects e = s.objects e := by
  unfold State.tellTimeout
  cases failed with
  | true =>
    obtain ⟨s',closes,kept,objects⟩ := closeKeeps k there
    exact ⟨s',closes,kept,fun e other => by rw [objects,Function.update_of_ne other]⟩
  | false =>
    have late := phaseKeeps k there (show Phase.timedOut ≠ .connecting from nofun)
    have here : (s.put v (.svc (some h) .timedOut)).objects v = some (.svc (some h) .timedOut) := Function.update_self _ _ _
    rw [if_neg Bool.false_ne_true,there]
    refine ⟨_,rfl,answerKeeps late (late.given v _ _ here) ?_,fun e other => Function.update_of_ne other _ _⟩
    rintro ⟨peer,is⟩
    cases here.symm.trans is

theorem timeoutKeeps {timer : Option TimerId} (there : s.objects n = some (.connect timer (some v)))
    (fired : Sound none none (s.put n (.connect none (some v)))) (failed : Bool) :
    ∃ s', s.handleTimeout n failed = some s' ∧ Sound none none s' := by
  obtain ⟨s₁,h,closes,taken,_,objects,svc⟩ := closeConnectKeeps fired (Function.update_self _ _ _)
  have dying : s₁.objects n = some (.connect none none) := objects ▸ Function.update_self _ _ _
  obtain ⟨s₂,tells,kept,others⟩ := tellKeeps taken svc failed
  have still : s₂.objects n = some (.connect none none) := by
    rw [others n,dying]
    rintro rfl
    cases dying.symm.trans svc
  obtain ⟨s₃,deletes,sound,_⟩ := deleteKeeps kept still
  refine ⟨s₃,?_,sound⟩
  unfold State.handleTimeout
  rw [there]
  simp only [closes,bind,Option.bind,tells]
  exact deletes

theorem connectKeeps (k : Sound none none s) {c : Connected} (possible : Possible s c) (fine : Fine s (.connect c)) :
    ∃ s', s.connect c = some s' ∧ Sound none none s' := by
  obtain ⟨made,there⟩ := makeKeeps k _ possible.1
  unfold State.connect
  cases c with
  | failed peer =>
    obtain ⟨s',closes,kept,_⟩ := closeKeeps made there
    exact ⟨s',closes,kept⟩
  | done h o =>
    obtain ⟨s₁,opens,opened,objects⟩ := openKeeps made there o
    have here : s₁.objects s.made = some (.svc (some h) .opened) := objects ▸ Function.update_self _ _ _
    obtain ⟨s₂,settles,kept,_⟩ := settleKeeps opened here (o.result ≠ 0)
    refine ⟨s₂,?_,kept⟩
    simp only [opens,bind,Option.bind]
    exact settles
  | inProgress h timeout =>
    simp only
    split
    · obtain ⟨s',closes,kept,_⟩ := closeKeeps made there
      exact ⟨s',closes,kept⟩
    · rename_i some_
      obtain ⟨range,scheduled⟩ := fine some_
      refine nonblockingKeeps made there range scheduled fun t same => ?_
      subst same
      exact possible.2

theorem acceptKeeps (k : Sound none none s) (fresh : s.sockets h = false) (o : Opening) :
    ∃ s', s.accept h o = some s' ∧ Sound none none s' := by
  obtain ⟨made,there⟩ := makeKeeps k (some h) fun h' mem => Option.some.inj mem ▸ fresh
  obtain ⟨s₁,opens,opened,objects⟩ := openKeeps made there o
  have here : s₁.objects s.made = some (.svc (some h) .opened) := objects ▸ Function.update_self _ _ _
  obtain ⟨s₂,settles,kept,_⟩ := settleKeeps opened here (o.result = -1)
  refine ⟨s₂,?_,kept⟩
  unfold State.accept
  simp only [opens,bind,Option.bind]
  exact settles

/- After the handle_close of whoever is in the table the rest of remove_handler_i finds nobody. -/
theorem removedKeeps (k : Sound none none s) (found : s.reactor.rep.find h = some e) (m : Mask) :
    ∃ s', s.removed e h m = some s' ∧ Sound none none s' := by
  have rest : ∀ {s'}, Sound none none s' → s'.reactor.rep.find h = none →
      { s' with reactor := (removeHandlerI linux id s'.reactor h m).1 } = s' := fun _ absent => by rw [removeAbsent absent]
  unfold State.removed
  rcases k.bound h e found with ⟨⟨t,v,connect,svc⟩,_⟩ | ⟨⟨p,ended,svc⟩,_⟩
  · obtain ⟨s',does,kept,objects⟩ := inputKeeps k connect
    have gone : ∀ w p, s'.objects w ≠ some (.svc (some h) p) := by
      intro w p here
      obtain ⟨off,was⟩ := objects w _ here
      exact off (k.one w v h p _ was svc)
    have absent : s'.reactor.rep.find h = none := by
      by_contra found'
      obtain ⟨e',found'⟩ := Option.ne_none_iff_exists'.1 found'
      rcases kept.bound h e' found' with ⟨⟨_,w,_,here⟩,_⟩ | ⟨⟨p,_,here⟩,_⟩
      · exact gone w _ here
      · exact gone e' p here
    refine ⟨s',?_,kept⟩
    simp only [connect,does,bind,Option.bind]
    rw [rest kept absent]
  · obtain ⟨s',destroys,gone⟩ := destroyGone k svc (.inr ended)
    have kept := goneKeeps k gone svc (.inr ended)
    have absent : s'.reactor.rep.find h = none := by
      by_contra found'
      obtain ⟨e',found'⟩ := Option.ne_none_iff_exists'.1 found'
      obtain ⟨other,was,_⟩ := gone.table h e' found'
      exact other (Option.some.inj (was.symm.trans found))
    refine ⟨s',?_,kept⟩
    simp only [svc,destroys,bind,Option.bind]
    rw [rest kept absent]

theorem stepKeeps (k : Sound none none s) {a : Act} (fine : Fine s a) {o : Option State} (does : act s a = some o) :
    ∃ s', o = some s' ∧ Sound none none s' := by
  cases a with
  | connect c =>
    simp only [act] at does
    split at does
    · rename_i possible
      cases Option.some.inj does
      exact connectKeeps k possible fine
    · cases does
  | accept h o =>
    simp only [act] at does
    split at does
    · rename_i fresh
      cases Option.some.inj does
      exact acceptKeeps k fresh o
    · cases does
  | input h returned =>
    simp only [act] at does
    cases found : s.reactor.rep.find h with
    | none =>
      rw [found] at does
      cases does
    | some e =>
      rw [found] at does
      simp only at does
      split at does
      · cases Option.some.inj does
        rcases k.bound h e found with ⟨⟨t,v,connect,_⟩,_⟩ | ⟨⟨p,_,svc⟩,_⟩
        · rw [connect]
          obtain ⟨s',input,kept,_⟩ := inputKeeps k connect
          exact ⟨s',input,kept⟩
        · rw [svc]
          simp only
          split
          · exact removedKeeps k found Mask.read
          · exact ⟨s,rfl,k⟩
      · cases does
  | output h remote o =>
    simp only [act] at does
    cases found : s.reactor.rep.find h with
    | none =>
      rw [found] at does
      cases does
    | some e =>
      rw [found] at does
      simp only at does
      split at does
      · cases Option.some.inj does
        rcases k.bound h e found with ⟨⟨t,v,connect,_⟩,_⟩ | ⟨⟨p,_,svc⟩,_⟩
        · rw [connect]
          exact outputKeeps k connect found remote o
        · rw [svc]
          exact ⟨s,rfl,k⟩
      · cases does
  | exception h =>
    simp only [act] at does
    cases found : s.reactor.rep.find h with
    | none =>
      rw [found] at does
      cases does
    | some e =>
      rw [found] at does
      simp only at does
      split at does
      · rename_i asked
        cases Option.some.inj does
        rcases k.bound h e found with ⟨_,mask⟩ | ⟨⟨p,_,svc⟩,_⟩
        · -- connect_mask asks for no exceptions
          rw [mask] at asked
          exact absurd asked (by decide)
        · rw [svc]
          exact ⟨s,rfl,k⟩
      · cases does
  | hangup h =>
    simp only [act] at does
    cases found : s.reactor.rep.find h with
    | none =>
      rw [found] at does
      cases does
    | some e =>
      rw [found] at does
      cases Option.some.inj does
      exact removedKeeps k found Mask.allEvents
  | timeout t failed =>
    simp only [act] at does
    cases timed : s.timers t with
    | none =>
      rw [timed] at does
      cases does
    | some n =>
      obtain ⟨v,connect,fired⟩ := expiredKeeps k timed
      rw [timed] at does
      simp only [connect] at does
      cases Option.some.inj does
      exact timeoutKeeps (s := { s with timers := Function.update s.timers t none }) connect fired failed
  | leave v =>
    simp only [act] at does
    cases svc : s.objects v with
    | none =>
      rw [svc] at does
      cases does
    | some o =>
      rw [svc] at does
      cases o with
      | connect t sh => cases does
      | svc peer p =>
        cases Option.some.inj does
        have ended : p ≠ .connecting := by
          rintro rfl
          exact fine peer svc
        obtain ⟨s',destroys,gone⟩ := destroyGone k svc (.inr ended)
        exact ⟨s',destroys,goneKeeps k gone svc (.inr ended)⟩

end Objects

section Breaks
variable {s : State}

theorem destroyObjects {v : EventHandler} {peer : Option Handle} {p : Phase} (there : s.objects v = some (.svc peer p)) :
    ∃ s', s.destroy v = some s' ∧ s'.objects = Function.update s.objects v none := by
  unfold State.destroy
  rw [there]
  cases peer <;> exact ⟨_,rfl,rfl⟩

theorem nonblockingFails {v : EventHandler} {h : Handle} {timeout : Timeout}
    (bad : ¬s.reactor.rep.handleInRange h ∨ timeout = .after none) : s.nonblockingConnect v h timeout = none := by
  unfold State.nonblockingConnect
  rcases bad with outside | unscheduled
  · have absent : s.reactor.rep.find h = none := if_neg outside
    simp only [State.put,registerOutside absent outside,if_true]
  · subst unscheduled
    simp only
    split <;> rfl

/- An assertion fails, or a connect handler is left with a svc_handler that is gone. -/
theorem stepBreaks (k : Sound none none s) {a : Act} (bad : ¬Fine s a) {o : Option State} (does : act s a = some o) :
    ¬∃ s', o = some s' ∧ Sound none none s' := by
  cases a with
  | connect c =>
    cases c with
    | inProgress h timeout =>
      simp only [Fine,Classical.not_imp,not_and_or,not_not] at bad
      obtain ⟨some_,bad⟩ := bad
      have fails : s.connect (.inProgress h timeout) = none := by
        unfold State.connect
        simp only [if_neg some_]
        exact nonblockingFails bad
      simp only [act,fails] at does
      split at does
      · cases Option.some.inj does
        rintro ⟨s',same,_⟩
        cases same
      · cases does
    | _ => exact absurd trivial bad
  | leave v =>
    simp only [Fine,not_forall,not_not] at bad
    obtain ⟨peer,svc⟩ := bad
    obtain ⟨s',destroys,objects⟩ := destroyObjects svc
    obtain ⟨n,t,connect⟩ := (k.waited v peer svc).resolve_left nofun
    simp only [act,svc,destroys] at does
    cases Option.some.inj does
    rintro ⟨s'',same,sound⟩
    cases Option.some.inj same
    have other : n ≠ v := by
      rintro rfl
      cases svc.symm.trans connect
    obtain ⟨w,h,sh,_,svc',_⟩ := (sound.pending n t (some v) (by rw [objects,Function.update_of_ne other,connect])).resolve_left
      fun both => nomatch both.1
    cases sh
    rw [objects,Function.update_self] at svc'
    cases svc'
  | _ => exact absurd trivial bad

end Breaks

theorem newSound (size : Int) : Sound none none (.new size) := by
  refine ⟨nofun,nofun,fun _ _ => rfl,nofun,nofun,nofun,nofun,nofun,fun h e found => ?_,nofun,nofun,nofun⟩
  have empty : (State.new size).reactor.rep.find h = none := by
    unfold HandlerRepository.find
    split <;> rfl
  cases empty.symm.trans found

def Good (o : Option State) : Prop := ∃ s, o = some s ∧ Sound none none s

/- No assertion fails and nobody who is gone is called: in every order of connects, events,
timeouts and ends each svc_handler is answered once, each connect under way has its handler
in the table and its timer, and nothing else is left there, exactly as long as sockets fit
the table, timers are to be had and no svc_handler is destroyed while its connect is under
way. -/
theorem connectorSound (size : Int) (acts : List Act) :
    Always step Good (some (.new size)) acts ↔ Along step (fun o a => ∀ s ∈ o, Fine s a) (some (.new size)) acts := by
  refine alwaysIffAlong ?_ (fun _ good => good) ?_ (show Good (some (.new size)) from ⟨_,rfl,newSound size⟩) acts
  · rintro o a o' ⟨s,rfl,k⟩ fine does
    exact stepKeeps k (fine s rfl) does
  · rintro o a o' ⟨s,rfl,k⟩ bad does
    exact stepBreaks k (fun fine => bad fun s' here => Option.some.inj here ▸ fine) does

/- A connect succeeds before its timeout, and its peer hangs up later. -/
example : ((run step (some (.new 16)) [.connect (.inProgress 3 (.after (some 7))),.output 3 true ⟨true,0⟩,.hangup 3]).bind id).map
    (fun s => (s.answers 0,s.objects 0,s.objects 1,s.timers 7,s.reactor.rep.find 3)) = some (1,none,none,none,none) := by
  decide

end CuteNdk.Connector
