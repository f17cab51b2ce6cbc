import CuteNdk.PullHttpHeader
import CuteNdk.Lib.Run

/-! A response means the same however it is cut into receives, and its content goes
to the pipe buffers in order, as long as each receive that ends in the header leaves
enough of it in recv_buff, and room for the terminator, and no search runs past it. -/
namespace CuteNdk.PullHttpAgent
open Lib.CString HttpParser
open Lib (Along Always run alwaysMono alwaysOfInvariant alwaysAtEnd)

/- A status line, fields without control characters, and the first empty line. -/
structure ValidHeader (header : Str) : Prop where
  statusLine : ∃ major minor d1 d2 d3 rest, (∀ c ∈ [major,minor,d1,d2,d3], c.isDigit = true) ∧
    header = "HTTP/".toList ++ [major,'.',minor,' '] ++ d1 :: d2 :: d3 :: rest
  ends : strstr header headerEnd = some headerEnd
  plain : ∀ c ∈ header, Plain c
  short : header.length < recvBuffSize

def Stream.decision (r : Stream) : Decision := responseDecision r.beginPos r.endPos (r.header.drop 9)

/- The content is as long as the header says. -/
structure ValidStream (r : Stream) : Prop where
  header : ValidHeader r.header
  content : ∀ contentLength range entityLength, r.decision = .accepted contentLength range entityLength →
    (r.content.length : Int) = contentLength

def Act.receives : Act → Option Nat
  | .receive n _ => some n
  | _ => none

/- While the header is awaited: "HTTP/" is there, set_eof has room, and no search of
what has come in leaves the header. -/
def Covered (r : Stream) (o : Option State) (a : Act) : Prop :=
  ∀ s ∈ o, ∀ n ∈ a.receives, s.toRecvHeader = true →
    5 ≤ s.data.length + n ∧ s.data.length + n < recvBuffSize ∧
      (r.header.length ≤ s.received + n →
        SearchesInside (r.header.drop 9) (text (r.content.take (s.received + n - r.header.length))))
instance (r : Stream) (o : Option State) (a : Act) : Decidable (Covered r o a) := by
  unfold Covered; infer_instance

/- What a state is, said by the stream and how much of it is received. -/
structure Canonical (r : Stream) (s : State) : Prop where
  awaits : s.received < r.header.length → s.decision = none
  decides : r.header.length ≤ s.received → s.decision = some r.decision
  passes : s.passed <+: r.content.take (s.received - r.header.length)
  inOrder : s.ended = none → s.decision ≠ none →
    s.passed ++ s.unread = r.content.take (s.received - r.header.length)
  completes : s.ended = some .completed → s.passed = r.content
  inside : s.rdPtr ≤ s.data.length ∧ s.data.length ≤ recvBuffSize

def Canonical? (r : Stream) : Option State → Prop
  | none => False
  | some s => Canonical r s

/- Two runs over one stream. -/
def Agree (s t : State) : Prop :=
  (s.decision.isSome = true → t.decision.isSome = true → s.decision = t.decision) ∧
    (s.passed.isPrefixOf t.passed ∨ t.passed.isPrefixOf s.passed) ∧
    (s.ended = some .completed → t.ended = some .completed → s.passed = t.passed)
instance (s t : State) : Decidable (Agree s t) := by
  unfold Agree; infer_instance

def Agree? : Option State → Option State → Prop
  | some s, some t => Agree s t
  | _, _ => False

instance : (o o' : Option State) → Decidable (Agree? o o')
  | some s, some t => inferInstanceAs (Decidable (Agree s t))
  | none, _ => isFalse id
  | some _, none => isFalse id

structure Awaiting (r : Stream) (s : State) : Prop where
  goesOn : s.ended = none
  header : s.toRecvHeader = true
  undecided : s.decision = none
  atStart : s.rdPtr = 0
  data : s.data = r.bytes.take s.received
  short : s.received < r.header.length
  passed : s.passed = []
  recvBytes : s.recvBytes = 0

structure Taking (r : Stream) (s : State) : Prop where
  goesOn : s.ended = none
  header : s.toRecvHeader = false
  decided : s.decision = some r.decision
  whole : (r.content.length : Int) = s.contentLength
  behind : r.header.length ≤ s.received
  within : s.received ≤ r.bytes.length
  inOrder : s.passed ++ s.unread = r.content.take (s.received - r.header.length)
  recvBytes : s.recvBytes = s.passed.length
  inside : s.rdPtr ≤ s.data.length ∧ s.data.length ≤ recvBuffSize

inductive Inv (r : Stream) (s : State) : Prop
  | awaiting (h : Awaiting r s)
  | taking (h : Taking r s)
  | stopped (h : Canonical r s) (ended : s.ended.isSome = true)

def Good (r : Stream) (o : Option State) : Prop := ∃ s, o = some s ∧ Inv r s

section Keeps
variable {r : Stream} {s : State}

theorem canonicalOfAwaiting (h : Awaiting r s) (valid : ValidHeader r.header) : Canonical r s := by
  have short := h.short
  have size : s.data.length ≤ recvBuffSize := by
    rw [h.data,List.length_take]
    have := valid.short
    omega
  refine ⟨fun _ => h.undecided,fun behind => absurd behind (by omega),?_,fun _ some_ => absurd h.undecided some_,
    fun ended => ?_,?_,size⟩
  · rw [h.passed]
    exact List.nil_prefix
  · rw [h.goesOn] at ended
    cases ended
  · rw [h.atStart]
    exact Nat.zero_le _

theorem canonicalOfTaking (h : Taking r s) : Canonical r s := by
  refine ⟨fun short => absurd h.behind (by omega),fun _ => h.decided,⟨_,h.inOrder⟩,fun _ _ => h.inOrder,
    fun ended => ?_,h.inside⟩
  rw [h.goesOn] at ended
  cases ended

theorem canonicalOfInv (valid : ValidHeader r.header) (h : Inv r s) : Canonical r s := by
  cases h with
  | awaiting h => exact canonicalOfAwaiting h valid
  | taking h => exact canonicalOfTaking h
  | stopped h _ => exact h

theorem endsGood (h : Canonical r s) {e : Ending} (early : e ≠ .completed) : Inv r (s.ends e) :=
  .stopped ⟨h.awaits,h.decides,h.passes,fun goesOn => (nomatch goesOn),
    fun ended => absurd (Option.some.inj ended) early,h.inside⟩ rfl

theorem consumeUnread {k : Nat} : (s.consume k).unread = s.unread.drop k := by
  unfold State.consume
  by_cases none_ : k = 0
  · rw [if_pos none_,none_,List.drop_zero]
  · by_cases all : s.length = k
    · have size : s.unread.length ≤ k := by
        rw [← all]
        exact Nat.le_of_eq List.length_drop
      rw [if_neg none_,if_pos all,List.drop_eq_nil_of_le size]
      rfl
    · rw [if_neg none_,if_neg all]
      exact List.drop_drop.symm

theorem consumeInside {k : Nat} (fits : k ≤ s.length) (inside : s.rdPtr ≤ s.data.length ∧ s.data.length ≤ recvBuffSize) :
    (s.consume k).rdPtr ≤ (s.consume k).data.length ∧ (s.consume k).data.length ≤ recvBuffSize := by
  unfold State.consume
  unfold State.length at fits ⊢
  split
  · exact inside
  · split
    · exact ⟨Nat.le_refl 0,Nat.zero_le _⟩
    · change s.rdPtr + k ≤ s.data.length ∧ s.data.length ≤ recvBuffSize
      omega

/- consume changes recv_buff only. -/
theorem consumeRest (s : State) (k : Nat) :
    s.consume k = { s with data := (s.consume k).data, rdPtr := (s.consume k).rdPtr } := by
  unfold State.consume
  split
  · rfl
  · split
    · rfl
    · rfl

theorem afterPackageGood (h : Taking r s)
    (open_ : s.pipeBuffer = false → s.passed.length < r.content.length) : Good r (afterPackage s) := by
  have bytes := h.recvBytes
  have whole := h.whole
  unfold afterPackage
  by_cases all : (s.recvBytes : Int) = s.contentLength
  · rw [if_pos all]
    cases pipe : s.pipeBuffer with
    | false =>
      have := open_ pipe
      omega
    | true =>
      have canonical := canonicalOfTaking h
      have passed : s.passed = r.content := by
        refine (canonical.passes.trans (List.take_prefix _ _)).eq_of_length ?_
        omega
      exact ⟨_,rfl,.stopped ⟨canonical.awaits,canonical.decides,canonical.passes,fun goesOn => (nomatch goesOn),
        fun _ => passed,canonical.inside⟩ rfl⟩
  · rw [if_neg all]
    exact ⟨_,rfl,.taking h⟩

theorem afterWriteGood (m : Meets) (h : Taking r s)
    (open_ : s.pipeBuffer = false → s.passed.length < r.content.length) : Good r (afterWrite m s) := by
  unfold afterWrite
  cases s.recvedFirstPackage with
  | true => exact afterPackageGood h open_
  | false =>
    have first : Taking r { s with recvedFirstPackage := true } :=
      ⟨h.goesOn,h.header,h.decided,h.whole,h.behind,h.within,h.inOrder,h.recvBytes,h.inside⟩
    cases m.transfer with
    | true => exact afterPackageGood first open_
    | false => exact ⟨_,rfl,endsGood (canonicalOfTaking first) (by decide)⟩

theorem handleContentGood (m : Meets) (h : Taking r s) (some_ : 0 < s.length) : Good r (handleContent m s) := by
  unfold handleContent
  by_cases missing : s.pipeBuffer = false ∧ m.pipeBuffer = false
  · rw [if_pos missing]
    exact ⟨_,rfl,endsGood (canonicalOfTaking h) (by decide)⟩
  · rw [if_neg missing]
    simp only [show s.length ≠ 0 by omega,if_false]
    generalize k_ : min s.length m.room = k
    have fits : k ≤ s.length := by omega
    have unreadLength : s.unread.length = s.length := List.length_drop
    -- what was passed and what is left are still the content that came in
    have next : Taking r { s.consume k with
        recvBytes := s.recvBytes + k
        passed := s.passed ++ s.unread.take k
        pipeBuffer := decide (k = s.length) } := by
      have order : s.passed ++ s.unread.take k ++ (s.consume k).unread
          = r.content.take (s.received - r.header.length) := by
        rw [consumeUnread,List.append_assoc,List.take_append_drop]
        exact h.inOrder
      have bytes : s.recvBytes + k = (s.passed ++ s.unread.take k).length := by
        rw [List.length_append,List.length_take,unreadLength,h.recvBytes,Nat.min_eq_left fits]
      have inside := consumeInside fits h.inside
      rw [consumeRest] at order ⊢
      exact ⟨h.goesOn,h.header,h.decided,h.whole,h.behind,h.within,order,bytes,inside⟩
    by_cases fails : k ≠ s.length ∧ m.suspends = false
    · rw [if_pos fails]
      exact ⟨_,rfl,endsGood (canonicalOfTaking next) (by decide)⟩
    · rw [if_neg fails]
      refine afterWriteGood m next fun short => ?_
      have left : k < s.length := Nat.lt_of_le_of_ne fits (of_decide_eq_false short)
      have total := congrArg List.length h.inOrder
      rw [List.length_append,unreadLength,List.length_take] at total
      change (s.passed ++ s.unread.take k).length < r.content.length
      rw [List.length_append,List.length_take,unreadLength]
      omega

theorem takingReceives (h : Taking r s) {n : Nat} (fits : n ≤ s.space) (within : s.received + n ≤ r.bytes.length) :
    Taking r { s with data := s.data ++ (r.bytes.drop s.received).take n, received := s.received + n } ∧
      s.length + n = (s.data ++ (r.bytes.drop s.received).take n).length - s.rdPtr := by
  obtain ⟨start,size⟩ := h.inside
  have behind := h.behind
  have got : ((r.bytes.drop s.received).take n).length = n := by
    rw [List.length_take,List.length_drop]
    omega
  unfold State.space at fits
  have order : s.passed ++ (s.data ++ (r.bytes.drop s.received).take n).drop s.rdPtr
      = r.content.take (s.received + n - r.header.length) := by
    have split : s.received + n - r.header.length = (s.received - r.header.length) + n := by omega
    have later : r.bytes.drop s.received = r.content.drop (s.received - r.header.length) := by
      unfold Stream.bytes
      rw [List.drop_append,List.drop_eq_nil_of_le behind,List.nil_append]
    rw [List.drop_append_of_le_length start,← List.append_assoc,split,List.take_add,later]
    exact congrArg (· ++ _) h.inOrder
  have total : (s.data ++ (r.bytes.drop s.received).take n).length = s.data.length + n := by
    rw [List.length_append,got]
  refine ⟨⟨h.goesOn,h.header,h.decided,h.whole,Nat.le_add_right_of_le behind,within,order,h.recvBytes,?_,?_⟩,?_⟩
  · change s.rdPtr ≤ (s.data ++ (r.bytes.drop s.received).take n).length
    omega
  · change (s.data ++ (r.bytes.drop s.received).take n).length ≤ recvBuffSize
    omega
  · unfold State.length
    omega

end Keeps

section Header
variable {r : Stream} {s : State}

theorem httpInLine : ∀ c ∈ "HTTP/".toList, NoBreak c := List.all_iff_forall_prop.1 (by decide)

theorem headerRest (h : ValidHeader r.header) :
    Rest (r.header.drop 9) ∧ "HTTP/".toList <+: r.header ∧ 12 ≤ r.header.length ∧
      (charAt ((r.header.drop 9).drop (strspn (r.header.drop 9) [' ','\t'])) 0).isDigit = true := by
  obtain ⟨major,minor,d1,d2,d3,rest,digits,line⟩ := h.statusLine
  obtain ⟨-,ends⟩ := strstrFound h.ends
  have whole : Rest r.header := ⟨ends,h.plain⟩
  have behind : r.header.drop 9 = d1 :: d2 :: d3 :: rest := by
    rw [line]
    rfl
  have first : d1.isDigit = true := digits d1 (by simp)
  refine ⟨?_,?_,?_,?_⟩
  · rw [behind]
    refine restAppend (line ▸ whole) fun c mem => ?_
    simp only [List.mem_append,List.mem_cons,List.not_mem_nil,or_false] at mem
    rcases mem with version | rfl | rfl | rfl | rfl
    · exact httpInLine c version
    · exact digitPlain (digits c (by simp))
    · decide
    · exact digitPlain (digits c (by simp))
    · decide
  · rw [line,List.append_assoc]
    exact List.prefix_append _ _
  · rw [line]
    simp
  · have noBlank : strspn (d1 :: d2 :: d3 :: rest) [' ','\t'] = 0 := by
      obtain ⟨space,-,-⟩ := digitNotSpace first
      have apart : d1 ≠ ' ' ∧ d1 ≠ '\t' := by
        refine ⟨?_,?_⟩
        · rintro rfl
          exact absurd space (by decide)
        · rintro rfl
          exact absurd space (by decide)
      simp [strspn,apart.1,apart.2]
    rw [behind,noBlank]
    exact first

theorem textPlain {x : Str} (plain : ∀ c ∈ x, Plain c) (attached : Str) : text (x ++ attached) = x ++ text attached := by
  refine List.takeWhile_append_of_pos fun c mem => bne_iff_ne.2 fun nul => ?_
  have printable := plain c mem
  subst c
  exact absurd printable (by decide)

/- The header is not over before its end. -/
theorem noEndBefore (h : ValidHeader r.header) {n : Nat} (short : n < r.header.length) :
    strstr (r.header.take n) headerEnd = none := by
  cases found : strstr (r.header.take n) headerEnd with
  | none => rfl
  | some t =>
    have all := strstrAppend (a := r.header.drop n) found
    rw [List.take_append_drop,h.ends] at all
    have size := congrArg List.length (Option.some.inj all)
    have start := (strstrFound found).1.length_le
    rw [List.length_append,List.length_drop] at size
    omega

/- handle_response as it finds recv_buff: the first bytes of the stream. -/
structure Arrived (r : Stream) (s : State) : Prop where
  goesOn : s.ended = none
  header : s.toRecvHeader = true
  undecided : s.decision = none
  atStart : s.rdPtr = 0
  data : s.data = r.bytes.take s.received
  within : s.received ≤ r.bytes.length
  passed : s.passed = []
  recvBytes : s.recvBytes = 0
  enough : 5 ≤ s.received
  room : s.received < recvBuffSize

theorem arrivedLength (h : Arrived r s) : s.data.length = s.received := by
  rw [h.data,List.length_take]
  exact Nat.min_eq_left h.within

/- What the decision leaves behind when the pull does not go on. -/
theorem arrivedEnds (h : Arrived r s) (behind : r.header.length ≤ s.received) {e : Ending} (early : e ≠ .completed)
    {s' : State} (decided : s'.decision = some r.decision) (received : s'.received = s.received)
    (passed : s'.passed = s.passed) (data : s'.data = s.data) (rdPtr : s'.rdPtr = s.rdPtr) : Inv r (s'.ends e) := by
  have size := arrivedLength h
  have room := h.room
  refine .stopped ⟨fun short => ?_,fun _ => decided,?_,fun goesOn => (nomatch goesOn),
    fun ended => absurd (Option.some.inj ended) early,?_⟩ rfl
  · change s'.received < r.header.length at short
    omega
  · change s'.passed <+: _
    rw [passed,h.passed]
    exact List.nil_prefix
  · change s'.rdPtr ≤ s'.data.length ∧ s'.data.length ≤ recvBuffSize
    rw [data,rdPtr,h.atStart]
    omega

theorem startPullGood (valid : ValidStream r) (m : Meets) (h : Arrived r s) (behind : r.header.length ≤ s.received)
    {contentLength entityLength : Int} {range : Option (Int × Int)}
    (accepted : r.decision = .accepted contentLength range entityLength) :
    Good r (startPull m { s with decision := some r.decision } r.header.length contentLength) := by
  have size := arrivedLength h
  have room := h.room
  have content : s.data.drop r.header.length = r.content.take (s.received - r.header.length) := by
    rw [h.data,Stream.bytes,List.take_append,List.drop_append_of_le_length,List.drop_eq_nil_of_le,List.nil_append]
    · exact List.length_take_le' _ _
    · rw [List.length_take]
      omega
  have taking : ∀ data rdPtr, data.drop rdPtr = r.content.take (s.received - r.header.length) →
      (rdPtr ≤ data.length ∧ data.length ≤ recvBuffSize) →
      Taking r { s with
        decision := some r.decision
        toRecvHeader := false
        contentLength := contentLength
        pipeBuffer := true
        data := data
        rdPtr := rdPtr } := by
    intro data rdPtr unread inside
    refine ⟨h.goesOn,rfl,rfl,valid.content _ _ _ accepted,behind,h.within,?_,?_,inside⟩
    · change s.passed ++ data.drop rdPtr = _
      rw [h.passed,List.nil_append]
      exact unread
    · change s.recvBytes = s.passed.length
      rw [h.recvBytes,h.passed]
      rfl
  unfold startPull
  by_cases empty : contentLength = 0
  · rw [if_pos empty]
    exact ⟨_,rfl,arrivedEnds h behind (by decide) rfl rfl rfl rfl rfl⟩
  · rw [if_neg empty]
    cases m.file with
    | false => exact ⟨_,rfl,arrivedEnds h behind (by decide) rfl rfl rfl rfl rfl⟩
    | true =>
      simp only [Bool.true_eq_false,if_false]
      by_cases attached : r.header.length < s.length
      · have more : r.header.length < State.length { s with
            decision := some r.decision
            toRecvHeader := false
            contentLength := contentLength
            pipeBuffer := true } := attached
        rw [if_pos more]
        have atStart := h.atStart
        unfold State.length at attached
        refine handleContentGood m (taking s.data (s.rdPtr + r.header.length) ?_ ?_) ?_
        · rw [atStart,Nat.zero_add]
          exact content
        · omega
        · change 0 < s.data.length - (s.rdPtr + r.header.length)
          omega
      · have none_ : ¬ r.header.length < State.length { s with
            decision := some r.decision
            toRecvHeader := false
            contentLength := contentLength
            pipeBuffer := true } := attached
        rw [if_neg none_]
        have atStart := h.atStart
        unfold State.length at attached
        refine ⟨_,rfl,.taking (taking [] 0 ?_ ⟨Nat.le_refl 0,Nat.zero_le _⟩)⟩
        have all : s.received - r.header.length = 0 := by omega
        rw [all]
        rfl

theorem handleResponseGood (valid : ValidStream r) (m : Meets) (h : Arrived r s)
    (inside : r.header.length ≤ s.received →
      SearchesInside (r.header.drop 9) (text (r.content.take (s.received - r.header.length)))) :
    Good r (handleResponse r.beginPos r.endPos m s) := by
  obtain ⟨rest,version,long,status⟩ := headerRest valid.header
  have size := arrivedLength h
  have room := h.room
  have enough := h.enough
  have http : "HTTP/".toList.length = 5 := by decide
  unfold handleResponse
  rw [if_neg (by omega)]
  by_cases behind : r.header.length ≤ s.received
  · have data : s.data = r.header ++ r.content.take (s.received - r.header.length) := by
      rw [h.data,Stream.bytes,List.take_append,List.take_of_length_le behind]
    have ptr : text s.data = r.header ++ text (r.content.take (s.received - r.header.length)) := by
      rw [data]
      exact textPlain valid.header.plain _
    have found := inside behind
    generalize text (r.content.take (s.received - r.header.length)) = attached at ptr found
    have starts : "HTTP/".toList.isPrefixOf (r.header ++ attached) :=
      List.isPrefixOf_iff_prefix.2 (version.trans (List.prefix_append _ _))
    have tail : (r.header ++ attached).drop 9 = r.header.drop 9 ++ attached :=
      List.drop_append_of_le_length (by omega)
    have decision : responseDecision r.beginPos r.endPos (r.header.drop 9 ++ attached) = r.decision :=
      decideAppend r.beginPos r.endPos rest status found
    have headerLength : (r.header ++ attached).length - (headerEnd ++ attached).length + 4 = r.header.length := by
      have four : headerEnd.length = 4 := rfl
      rw [List.length_append,List.length_append]
      omega
    simp only [ptr,starts,not_true_eq_false,if_false,strstrAppend valid.header.ends,tail,decision,headerLength]
    cases accepted : r.decision with
    | rejected errorDesc =>
      exact ⟨_,rfl,arrivedEnds h behind (by decide) (by rw [accepted]) rfl rfl rfl rfl⟩
    | accepted contentLength range entityLength =>
      have starts := startPullGood valid m h behind accepted
      rw [accepted] at starts
      exact starts
  · have data : s.data = r.header.take s.received := by
      rw [h.data,Stream.bytes,List.take_append_of_le_length (by omega)]
    have ptr : text s.data = r.header.take s.received := by
      have all := textPlain (fun c mem => valid.header.plain c (List.mem_of_mem_take mem) :
        ∀ c ∈ r.header.take s.received, Plain c) []
      rw [List.append_nil] at all
      rw [data,all]
      exact List.append_nil _
    have starts : "HTTP/".toList.isPrefixOf (r.header.take s.received) :=
      List.isPrefixOf_iff_prefix.2 (List.prefix_of_prefix_length_le version (List.take_prefix _ _) (by
        rw [List.length_take]
        omega))
    have spaceLeft : s.space ≠ 0 := by
      unfold State.space
      omega
    simp only [ptr,starts,not_true_eq_false,if_false,noEndBefore valid.header (by omega : s.received < _),spaceLeft]
    exact ⟨s,rfl,.awaiting ⟨h.goesOn,h.header,h.undecided,h.atStart,h.data,by omega,h.passed,h.recvBytes⟩⟩

end Header

section Runs
variable {r : Stream} {s : State}

theorem receiveGood (valid : ValidStream r) (h : Inv r s) (goesOn : s.ended = none) {n : Nat} (m : Meets)
    (some_ : 0 < n) (fits : n ≤ s.space)
    (within : s.received + n ≤ r.bytes.length) (covered : Covered r (some s) (.receive n m)) :
    Good r (if s.toRecvHeader then
        handleResponse r.beginPos r.endPos m
          { s with data := s.data ++ (r.bytes.drop s.received).take n, received := s.received + n }
      else handleContent m
        { s with data := s.data ++ (r.bytes.drop s.received).take n, received := s.received + n }) := by
  cases h with
  | awaiting h =>
    rw [if_pos h.header]
    obtain ⟨enough,room,inside⟩ := covered s rfl n rfl h.header
    have size : s.data.length = s.received := by
      rw [h.data,List.length_take]
      omega
    refine handleResponseGood valid m ⟨h.goesOn,h.header,h.undecided,h.atStart,?_,within,h.passed,h.recvBytes,?_,?_⟩
      inside
    · change s.data ++ (r.bytes.drop s.received).take n = r.bytes.take (s.received + n)
      rw [h.data,List.take_add]
    · change 5 ≤ s.received + n
      omega
    · change s.received + n < recvBuffSize
      omega
  | taking h =>
    rw [if_neg (by rw [h.header]; decide)]
    obtain ⟨taking,length⟩ := takingReceives h fits within
    refine handleContentGood m taking ?_
    change 0 < (s.data ++ (r.bytes.drop s.received).take n).length - s.rdPtr
    omega
  | stopped _ ended =>
    rw [goesOn] at ended
    cases ended

theorem fullGood (valid : ValidStream r) (h : Inv r s) (goesOn : s.ended = none) (m : Meets) (full : s.space = 0)
    (some_ : 0 < s.length) : Good r (handleContent m s) := by
  cases h with
  | awaiting h =>
    have room := valid.header.short
    have short := h.short
    have size : s.data.length ≤ s.received := by
      rw [h.data,List.length_take]
      exact Nat.min_le_left _ _
    unfold State.space at full
    omega
  | taking h => exact handleContentGood m h some_
  | stopped _ ended =>
    rw [goesOn] at ended
    cases ended

theorem stepGood (valid : ValidStream r) {o o' : Option State} {a : Act} (good : Good r o)
    (covered : Covered r o a) (did : step r o a = some o') : Good r o' := by
  obtain ⟨s,rfl,h⟩ := good
  simp only [step] at did
  split at did
  · cases did
  · rename_i notEnded
    have goesOn : s.ended = none := by simpa using notEnded
    cases a with
    | receive n m =>
      simp only [handleInput] at did
      split at did
      · rename_i may
        cases did
        exact receiveGood valid h goesOn m may.2.1 may.2.2.1 may.2.2.2 covered
      · cases did
    | full m =>
      simp only [handleInput] at did
      split at did
      · rename_i may
        cases did
        exact fullGood valid h goesOn m may.1 may.2
      · cases did
    | wouldBlock =>
      simp only [handleInput] at did
      split at did
      · cases did
        exact ⟨s,rfl,h⟩
      · cases did
    | closed =>
      simp only [handleInput] at did
      split at did
      · cases did
        exact ⟨_,rfl,endsGood (canonicalOfInv valid.header h) (by decide)⟩
      · cases did

theorem openGood (valid : ValidStream r) : Good r (some open_) := by
  obtain ⟨-,-,long,-⟩ := headerRest valid.header
  exact ⟨_,rfl,.awaiting ⟨rfl,rfl,rfl,rfl,rfl,by change 0 < _; omega,rfl,rfl⟩⟩

theorem canonicalWhileCovered (valid : ValidStream r) {as : List Act}
    (covered : Along (step r) (Covered r) (some open_) as) : Always (step r) (Canonical? r) (some open_) as := by
  refine alwaysMono (fun o good => ?_) (alwaysOfInvariant
    (fun o a o' good covered did => stepGood valid good covered did) (openGood valid) covered)
  obtain ⟨s,rfl,h⟩ := good
  exact canonicalOfInv valid.header h

/- Two states that one stream says everything of. -/
theorem canonicalAgree {s t : State} (hs : Canonical r s) (ht : Canonical r t) : Agree s t := by
  have decided : ∀ {u : State}, Canonical r u → u.decision.isSome = true → u.decision = some r.decision := by
    intro u h some_
    refine h.decides (Nat.le_of_not_lt fun short => ?_)
    rw [h.awaits short] at some_
    cases some_
  refine ⟨fun some_ some' => (decided hs some_).trans (decided ht some').symm,?_,fun all all' =>
    (hs.completes all).trans (ht.completes all').symm⟩
  have first := hs.passes.trans (List.take_prefix _ _)
  have second := ht.passes.trans (List.take_prefix _ _)
  rcases List.prefix_or_prefix_of_prefix first second with ahead | behind
  · exact Or.inl (List.isPrefixOf_iff_prefix.2 ahead)
  · exact Or.inr (List.isPrefixOf_iff_prefix.2 behind)

/- Each of the two runs is what the stream says, so they agree. -/
theorem sameWhileCovered (valid : ValidStream r) {as bs : List Act}
    (covered : Along (step r) (Covered r) (some open_) as)
    (covered' : Along (step r) (Covered r) (some open_) bs) :
    Always (step r) (Canonical? r) (some open_) as ∧
      ∀ o o', run (step r) (some open_) as = some o → run (step r) (some open_) bs = some o' → Agree? o o' := by
  have first := canonicalWhileCovered valid covered
  have second := canonicalWhileCovered valid covered'
  refine ⟨first,fun o o' ends ends' => ?_⟩
  have canonical := alwaysAtEnd first ends
  have canonical' := alwaysAtEnd second ends'
  cases o with
  | none => exact canonical.elim
  | some s => cases o' with
    | none => exact canonical'.elim
    | some t => exact canonicalAgree canonical canonical'

/- The two bytes from 3 on of nine. -/
def twoOfNine : Stream where
  beginPos := 3
  endPos := 4
  header := "HTTP/1.1 206 P\r\nContent-Length: 2\r\nContent-Range: bytes 3-4/9\r\n\r\n".toList
  content := ['a','b']

theorem twoOfNineValid : ValidStream twoOfNine := by
  have digits : ∀ c ∈ ['1','1','2','0','6'], c.isDigit = true := List.all_iff_forall_prop.1 (by decide)
  have plain : ∀ c ∈ twoOfNine.header, Plain c := List.all_iff_forall_prop.1 (by decide +kernel)
  refine ⟨⟨⟨'1','1','2','0','6',_,digits,rfl⟩,by decide +kernel,plain,by decide +kernel⟩,?_⟩
  intro contentLength range entityLength accepted
  have said : twoOfNine.decision = .accepted 2 (some (3,4)) 9 := by decide +kernel
  cases said.symm.trans accepted
  rfl

def meetsAll : Meets := ⟨true,true,1000,true,true⟩

def fiveFirst : List Act :=
  [.receive 5 meetsAll,.receive 40 meetsAll,.wouldBlock,.receive 21 meetsAll,.receive 1 meetsAll]

theorem twoOfNineSame :
    (Always (step twoOfNine) (Canonical? twoOfNine) (some open_) fiveFirst ∧
      ∀ o o', run (step twoOfNine) (some open_) fiveFirst = some o →
        run (step twoOfNine) (some open_) [.receive 67 meetsAll] = some o' → Agree? o o') ∧
      (run (step twoOfNine) (some open_) fiveFirst).join.map State.passed = some ['a','b'] ∧
      (run (step twoOfNine) (some open_) [.receive 67 meetsAll]).join.map State.passed = some ['a','b'] :=
  ⟨sameWhileCovered twoOfNineValid (by decide +kernel) (by decide +kernel),by decide +kernel,by decide +kernel⟩

/- A first receive of three bytes is rejected. -/
theorem threeBytesFirst :
    ValidStream twoOfNine ∧
      (run (step twoOfNine) (some open_) [.receive 3 meetsAll]).join.isSome = true ∧
      (run (step twoOfNine) (some open_) [.receive 67 meetsAll]).join.isSome = true ∧
      ¬ Agree? (run (step twoOfNine) (some open_) [.receive 3 meetsAll]).join
        (run (step twoOfNine) (some open_) [.receive 67 meetsAll]).join :=
  ⟨twoOfNineValid,by decide +kernel,by decide +kernel,by decide +kernel⟩

/- A Content-Length that the content brings. -/
example : let r : Stream := ⟨0,-1,"HTTP/1.1 200 OK\r\n\r\n".toList,"Content-Length: 7\r\n".toList⟩
    ¬ Agree? (run (step r) (some open_) [.receive 19 meetsAll]).join
      (run (step r) (some open_) [.receive 38 meetsAll]).join := by
  decide +kernel

end Runs

end CuteNdk.PullHttpAgent
