import CuteNdk.PullPipe
import CuteNdk.Lib.Run
import Mathlib.Algebra.Order.Ring.Int

/-! The bitmap of file_info, one character for each chunk of the file, and when
check_file_completed takes a file to be complete. A result of none is behaviour C++
leaves undefined, or an allocation that throws. -/
namespace CuteNdk.FileCompletion
open PullPipe (pipeChunkSize)
open Lib (run)

inductive Status where | uncompleted | completed deriving DecidableEq, Repr

structure FileInfo where
  length : Int
  bitmap : List Char
  status : Status
  deriving DecidableEq, Repr

/- int chunks = length_/PIPE_CHUNK_SIZE + 1; the quotient is 64 bits wide, chunks 32. -/
def chunks (length : Int) : Int := (length.tdiv pipeChunkSize + 1).bmod (2 ^ 32)

/- A file_info once length(val) has made its bitmap. -/
def FileInfo.make (val : Int) : Option FileInfo :=
  if chunks val < 0 then none else some ⟨val,List.replicate (chunks val).toNat '0',.uncompleted⟩

def FileInfo.setBitmap (f : FileInfo) (chunkId : Int) : Option FileInfo :=
  if 0 ≤ chunkId ∧ chunkId < f.bitmap.length then
    some { f with bitmap := f.bitmap.set chunkId.toNat '1' }
  else none

/- The loop of check_file_completed over the n chunks from i on. -/
def checkFrom (bitmap : List Char) : Nat → Nat → Option Bool
  | 0, _ => some true
  | n + 1, i =>
    match bitmap[i]? with
    | none => none
    | some c => if c = '0' then some false else checkFrom bitmap n (i + 1)

def FileInfo.checkFileCompleted (f : FileInfo) : Option Bool := checkFrom f.bitmap (chunks f.length).toNat 0

/- What handle_aio_write does to the file_info once a chunk is written. -/
def FileInfo.handleAioWrite (f : FileInfo) (chunkId : Int) : Option FileInfo := do
  let f ← f.setBitmap chunkId
  let completed ← f.checkFileCompleted
  some (if completed then { f with status := .completed } else f)

section Bitmap
variable {f g : FileInfo} {length : Int} {marks : List Int}

theorem checkFromIff {bitmap : List Char} {n i : Nat} (inside : i + n ≤ bitmap.length) :
    ∃ b, checkFrom bitmap n i = some b ∧ (b = true ↔ ∀ j, i ≤ j → j < i + n → bitmap[j]? ≠ some '0') := by
  induction n generalizing i with
  | zero => exact ⟨true,rfl,fun _ j low high => by omega,fun _ => rfl⟩
  | succ n ih =>
    obtain ⟨c,here⟩ : ∃ c, bitmap[i]? = some c := ⟨_,List.getElem?_eq_getElem (by omega)⟩
    simp only [checkFrom,here]
    by_cases zero : c = '0'
    · rw [if_pos zero]
      refine ⟨false,rfl,nofun,fun all => ?_⟩
      exact absurd (zero ▸ here) (all i le_rfl (by omega))
    · rw [if_neg zero]
      obtain ⟨b,rest,iff⟩ := ih (i := i + 1) (by omega)
      refine ⟨b,rest,iff.trans ⟨fun all j low high => ?_,fun all j low high => all j (by omega) (by omega)⟩⟩
      rcases Nat.eq_or_lt_of_le low with rfl | later
      · rw [here]
        exact fun same => zero (Option.some.inj same)
      · exact all j later (by omega)

/- The bitmap of a file whose chunks in marks are set. -/
structure Marked (f : FileInfo) (marks : Int → Prop) : Prop where
  size : (f.bitmap.length : Int) = chunks f.length
  inside : ∀ c, marks c → 0 ≤ c ∧ c < chunks f.length
  bits : ∀ i < f.bitmap.length, f.bitmap[i]? = some '0' ↔ ¬marks i

theorem makeMarked (made : FileInfo.make length = some f) : Marked f (fun _ => False) ∧ f.length = length := by
  unfold FileInfo.make at made
  split at made
  · cases made
  · cases Option.some.inj made
    refine ⟨⟨?_,fun _ => False.elim,fun i hi => ?_⟩,rfl⟩
    · simp only [List.length_replicate]
      omega
    · simp only [List.length_replicate] at hi
      simp [hi]

theorem setMarked {marked : Int → Prop} {c : Int} (h : Marked f marked) (set : f.setBitmap c = some g) :
    Marked g (fun k => marked k ∨ k = c) ∧ g.length = f.length := by
  unfold FileInfo.setBitmap at set
  split at set
  · rename_i inside
    cases Option.some.inj set
    refine ⟨⟨?_,fun k marks => ?_,fun i hi => ?_⟩,rfl⟩
    · simp only [List.length_set]
      exact h.size
    · rcases marks with before | rfl
      · exact h.inside k before
      · exact ⟨inside.1,h.size ▸ inside.2⟩
    · simp only [List.length_set] at hi
      by_cases here : (i : Int) = c
      · have at_ : c.toNat = i := by omega
        simp [at_,hi,here]
      · have off : c.toNat ≠ i := by omega
        simp only [List.getElem?_set_ne off,h.bits i hi,here,or_false]
  · cases set

theorem setRuns {marked : Int → Prop} {c : Int} (h : Marked f marked) (inside : 0 ≤ c ∧ c < chunks f.length) :
    ∃ g, f.setBitmap c = some g := by
  refine ⟨_,if_pos ⟨inside.1,?_⟩⟩
  rw [h.size]
  exact inside.2

theorem runMarked {marked : Int → Prop} (h : Marked f marked) (ran : run FileInfo.setBitmap f marks = some g) :
    Marked g (fun k => marked k ∨ k ∈ marks) ∧ g.length = f.length := by
  induction marks generalizing f marked with
  | nil =>
    cases Option.some.inj ran
    refine ⟨?_,rfl⟩
    simpa only [List.not_mem_nil,or_false] using h
  | cons c marks ih =>
    obtain ⟨m,set,rest⟩ := Option.bind_eq_some_iff.1 ran
    obtain ⟨h₁,same⟩ := setMarked h set
    obtain ⟨h₂,same'⟩ := ih h₁ rest
    refine ⟨⟨h₂.size,fun k mem => h₂.inside k ?_,fun i hi => (h₂.bits i hi).trans (not_congr ?_)⟩,same'.trans same⟩
    · rcases mem with before | later
      · exact Or.inl (Or.inl before)
      · exact (List.mem_cons.1 later).elim (fun eq => Or.inl (Or.inr eq)) Or.inr
    · rw [List.mem_cons,or_assoc]

theorem runRuns {marked : Int → Prop} (h : Marked f marked) (inside : ∀ c ∈ marks, 0 ≤ c ∧ c < chunks f.length) :
    ∃ g, run FileInfo.setBitmap f marks = some g := by
  induction marks generalizing f marked with
  | nil => exact ⟨f,rfl⟩
  | cons c marks ih =>
    obtain ⟨m,set⟩ := setRuns h (inside c List.mem_cons_self)
    obtain ⟨h₁,same⟩ := setMarked h set
    obtain ⟨g,rest⟩ := ih h₁ fun k mem => by
      rw [same]
      exact inside k (List.mem_cons_of_mem c mem)
    exact ⟨g,Option.bind_eq_some_iff.2 ⟨m,set,rest⟩⟩

/- check_file_completed looks at every character of the bitmap. -/
theorem checkIff {marked : Int → Prop} (h : Marked f marked) : ∃ b, f.checkFileCompleted = some b ∧
    (b = true ↔ ∀ c, 0 ≤ c → c < chunks f.length → marked c) := by
  have size : (chunks f.length).toNat = f.bitmap.length := by
    rw [← h.size]
    rfl
  unfold FileInfo.checkFileCompleted
  rw [size]
  have inside : 0 + f.bitmap.length ≤ f.bitmap.length := by omega
  obtain ⟨b,ran,iff⟩ := checkFromIff inside
  refine ⟨b,ran,iff.trans ⟨fun all c low high => ?_,fun all j _ high => ?_⟩⟩
  · have high' : c.toNat < f.bitmap.length := by
      have bound := h.size
      omega
    have set := all c.toNat (Nat.zero_le _) (by omega)
    have back : ((c.toNat : Nat) : Int) = c := Int.toNat_of_nonneg low
    rw [Ne,h.bits _ high',not_not,back] at set
    exact set
  · rw [Nat.zero_add] at high
    rw [Ne,h.bits j high,not_not]
    refine all j (Int.natCast_nonneg j) ?_
    rw [← h.size]
    exact_mod_cast high

end Bitmap

/- Some byte of the file lies in the chunk. -/
def NonEmpty (length c : Int) : Prop := 0 ≤ c ∧ c * pipeChunkSize < min length ((c + 1) * pipeChunkSize)

/- After set_bitmap of the marks check_file_completed says whether they are all the
chunks there are. -/
def RecognisesCompletion (length : Int) (marks : List Int) : Prop :=
  ∃ f, ((FileInfo.make length).bind fun f => run FileInfo.setBitmap f marks) = some f ∧
    (f.checkFileCompleted = some true ↔ ∀ c, NonEmpty length c → c ∈ marks)

/- Either the chunks are counted right and the last one counted is no empty one that
nobody marks; or a chunk within the bitmap is not marked. -/
def Recognisable (length : Int) (marks : List Int) : Prop :=
  (length / pipeChunkSize + 1 < 2 ^ 31 ∧ (length % pipeChunkSize ≠ 0 ∨ length / pipeChunkSize ∈ marks)) ∨
    ((∀ c ∈ marks, c < chunks length) ∧ ∃ c, 0 ≤ c ∧ c < chunks length ∧ NonEmpty length c ∧ c ∉ marks)

section Completion
variable {length : Int} {marks : List Int}

theorem chunkSizeIs : (pipeChunkSize : Int) = 1048576 := rfl

theorem nonEmptyIff {c : Int} : NonEmpty length c ↔ 0 ≤ c ∧ c * 1048576 < length := by
  unfold NonEmpty
  rw [chunkSizeIs]
  refine and_congr_right fun _ => ⟨fun less => less.trans_le (min_le_left _ _),fun less => lt_min less ?_⟩
  omega

/- The number of chunks, or what is left of it in 32 bits. -/
theorem chunksIs (nonneg : 0 ≤ length) :
    (length / pipeChunkSize + 1 < 2 ^ 31 → chunks length = length / pipeChunkSize + 1) ∧
    (¬length / pipeChunkSize + 1 < 2 ^ 31 → chunks length < length / pipeChunkSize) := by
  unfold chunks
  rw [Int.tdiv_eq_ediv_of_nonneg nonneg,chunkSizeIs]
  simp only [Int.bmod_def]
  omega

/- Both sides of the equivalence the claim is about, where the marks fit. -/
theorem recognisesIff (inside : ∀ c ∈ marks, 0 ≤ c ∧ c < chunks length) (some_ : 0 ≤ chunks length) :
    RecognisesCompletion length marks ↔
      ((∀ c, 0 ≤ c → c < chunks length → c ∈ marks) ↔ ∀ c, NonEmpty length c → c ∈ marks) := by
  obtain ⟨f,made⟩ : ∃ f, FileInfo.make length = some f := ⟨_,if_neg (not_lt.2 some_)⟩
  obtain ⟨h,same⟩ := makeMarked made
  obtain ⟨g,ran⟩ := runRuns h (by rw [same]; exact inside)
  obtain ⟨h',same'⟩ := runMarked h ran
  obtain ⟨b,checked,iff⟩ := checkIff h'
  rw [same',same] at iff
  simp only [false_or] at iff
  have runs : ((FileInfo.make length).bind fun f => run FileInfo.setBitmap f marks) = some g := by
    rw [made]
    exact ran
  have all : g.checkFileCompleted = some true ↔ ∀ c, 0 ≤ c → c < chunks length → c ∈ marks := by
    rw [checked,Option.some.injEq]
    exact iff
  constructor
  · rintro ⟨g',ran',meets⟩
    cases Option.some.inj (runs.symm.trans ran')
    exact all.symm.trans meets
  · intro meets
    exact ⟨g,runs,all.trans meets⟩

/- A mark outside the bitmap is never set. -/
theorem marksInside (h : RecognisesCompletion length marks) : 0 ≤ chunks length ∧ ∀ c ∈ marks, c < chunks length := by
  obtain ⟨f,ran,_⟩ := h
  obtain ⟨f₀,made,ran⟩ := Option.bind_eq_some_iff.1 ran
  obtain ⟨h₀,same⟩ := makeMarked made
  obtain ⟨h',same'⟩ := runMarked h₀ ran
  refine ⟨?_,fun c mem => ?_⟩
  · rw [← same,← h₀.size]
    exact Int.natCast_nonneg _
  · have inside := (h'.inside c (Or.inr mem)).2
    rw [same',same] at inside
    exact inside

theorem recognisableIff (positive : 1 ≤ length) (valid : ∀ c ∈ marks, 0 ≤ c ∧ c ≤ length / pipeChunkSize) :
    RecognisesCompletion length marks ↔ Recognisable length marks := by
  obtain ⟨exact_,wraps⟩ := chunksIs (show 0 ≤ length by omega)
  unfold Recognisable
  simp only [chunkSizeIs] at valid exact_ wraps ⊢
  by_cases fits : 0 ≤ chunks length ∧ ∀ c ∈ marks, c < chunks length
  · obtain ⟨nonneg,below⟩ := fits
    rw [recognisesIff (fun c mem => ⟨(valid c mem).1,below c mem⟩) nonneg]
    by_cases missing : ∃ c, 0 ≤ c ∧ c < chunks length ∧ NonEmpty length c ∧ c ∉ marks
    · obtain ⟨c,low,high,nonEmpty,off⟩ := missing
      refine ⟨fun _ => Or.inr ⟨below,c,low,high,nonEmpty,off⟩,fun _ => ⟨fun all => ?_,fun all => ?_⟩⟩
      · exact absurd (all c low high) off
      · exact absurd (all c nonEmpty) off
    · -- all the chunks within the bitmap that hold a byte are marked
      have marked : ∀ c, 0 ≤ c → c < chunks length → NonEmpty length c → c ∈ marks := by
        intro c low high nonEmpty
        by_contra off
        exact missing ⟨c,low,high,nonEmpty,off⟩
      by_cases small : length / 1048576 + 1 < 2 ^ 31
      · have count := exact_ small
        have every : ∀ c, NonEmpty length c → c ∈ marks := by
          intro c nonEmpty
          have within := nonEmptyIff.1 nonEmpty
          refine marked c within.1 ?_ nonEmpty
          rw [count]
          omega
        have last : 0 ≤ length / 1048576 ∧ length / 1048576 < chunks length := by
          rw [count]
          omega
        constructor
        · intro iff
          refine Or.inl ⟨small,?_⟩
          by_cases boundary : length % 1048576 = 0
          · exact Or.inr (iff.2 every _ last.1 last.2)
          · exact Or.inl boundary
        · intro good
          refine ⟨fun _ => every,fun _ c low high => ?_⟩
          by_cases nonEmpty : NonEmpty length c
          · exact every c nonEmpty
          · rw [nonEmptyIff] at nonEmpty
            have atEnd : c = length / 1048576 ∧ length % 1048576 = 0 := by
              rw [count] at high
              omega
            rcases good with ⟨_,partly | mem⟩ | ⟨_,found⟩
            · exact absurd atEnd.2 partly
            · rw [atEnd.1]
              exact mem
            · exact absurd found missing
      · have short := wraps small
        constructor
        · intro iff
          -- the bitmap is full, and the chunk behind it holds bytes
          have full : ∀ c, 0 ≤ c → c < chunks length → c ∈ marks := fun c low high => by
            refine marked c low high (nonEmptyIff.2 ⟨low,?_⟩)
            omega
          have behind := iff.1 full (chunks length) (nonEmptyIff.2 ⟨nonneg,by omega⟩)
          exact absurd (below _ behind) (lt_irrefl _)
        · intro good
          rcases good with ⟨small',_⟩ | ⟨_,found⟩
          · exact absurd small' small
          · exact absurd found missing
  · refine ⟨fun recognises => absurd (marksInside recognises) fits,fun good => ?_⟩
    rcases good with ⟨small,_⟩ | ⟨below,c,low,high,_⟩
    · have count := exact_ small
      refine absurd ⟨?_,fun c mem => ?_⟩ fits
      · rw [count]
        omega
      · have bound := (valid c mem).2
        rw [count]
        omega
    · exact absurd ⟨low.trans high.le,below⟩ fits

end Completion

end CuteNdk.FileCompletion
