import CuteNdk.PullPipe
import Mathlib.Data.List.Count

/-! The pipe buffers of a request that is pulled: each holds the bytes of its chunk
from the first on, is registered under no other chunk, and stays as long as one of
the two sides holds it. -/
namespace CuteNdk.PullPipe

section Files
variable {α : Type} {p : Pull α} {f : FileInfo α} {recvBytes count id : Nat} {holders : List Nat}

def firstChunkId (p : Pull α) : Nat := p.beginPos / pipeChunkSize

/- The size of the j-th pipe buffer of the request. -/
def chunkSize (p : Pull α) (j : Nat) : Nat := min pipeChunkSize (p.content.length - j * pipeChunkSize)

structure PipeOk (p : Pull α) (recvBytes j : Nat) (pipe : PipeBuffer α) : Prop where
  chunk : pipe.chunkId = firstChunkId p + j
  size : pipe.bufferSize = chunkSize p j
  short : pipe.data.length ≤ pipe.bufferSize
  data : pipe.data = (p.content.drop (j * pipeChunkSize)).take pipe.data.length
  behind : pipe.data = [] ∨ j * pipeChunkSize + pipe.data.length ≤ recvBytes

/- The pipe buffers, made in the order of their chunks, and who holds one of them. -/
structure Files (p : Pull α) (recvBytes count : Nat) (f : FileInfo α) (holders : List Nat) : Prop where
  pipes : ∀ j pipe, f.pipes j = some pipe → PipeOk p recvBytes j pipe
  table : ∀ c j, f.pipeBuffers c = some j → c = firstChunkId p + j ∧ (f.pipes j).isSome
  made : f.made = count
  fresh : ∀ j, count ≤ j → f.pipes j = none
  refs : ∀ j pipe, f.pipes j = some pipe → holders.count j ≤ pipe.refCount
  held : ∀ j ∈ holders, (f.pipes j).isSome

/- What a holder of a pipe buffer sees of it stays. -/
def SameData (f f' : FileInfo α) (holders : List Nat) : Prop :=
  ∀ j ∈ holders, ∀ pipe, f.pipes j = some pipe →
    ∃ pipe', f'.pipes j = some pipe' ∧ pipe'.data = pipe.data ∧ pipe'.bufferSize = pipe.bufferSize

theorem filesPerm {holders' : List Nat} (h : Files p recvBytes count f holders) (same : holders.Perm holders') :
    Files p recvBytes count f holders' :=
  { h with
    refs := fun j pipe found => same.count_eq j ▸ h.refs j pipe found
    held := fun j hj => h.held j (same.symm.subset hj) }

theorem pipeOkRefs {j n : Nat} {pipe : PipeBuffer α} (h : PipeOk p recvBytes j pipe) :
    PipeOk p recvBytes j { pipe with refCount := n } :=
  ⟨h.chunk,h.size,h.short,h.data,h.behind⟩

/- One pipe buffer written over, by one of the same chunk. -/
theorem filesSet {holders' : List Nat} {pipe : PipeBuffer α} (h : Files p recvBytes count f holders)
    (there : (f.pipes id).isSome) (ok : PipeOk p recvBytes id pipe)
    (refs : holders'.count id ≤ pipe.refCount) (others : ∀ j, j ≠ id → holders'.count j = holders.count j) :
    Files p recvBytes count (f.set id pipe) holders' := by
  have here : (f.set id pipe).pipes id = some pipe := Function.update_self _ _ _
  have off : ∀ j, j ≠ id → (f.set id pipe).pipes j = f.pipes j := fun j other => Function.update_of_ne other _ _
  refine ⟨fun j pipe' found => ?_,fun c j listed => ?_,h.made,fun j far => ?_,fun j pipe' found => ?_,fun j hj => ?_⟩
  · by_cases same : j = id
    · subst j
      cases Option.some.inj (here.symm.trans found)
      exact ok
    · exact h.pipes j pipe' (off j same ▸ found)
  · obtain ⟨at',some_⟩ := h.table c j listed
    refine ⟨at',?_⟩
    by_cases same : j = id
    · subst j
      rw [here]
      rfl
    · rw [off j same]
      exact some_
  · have other : j ≠ id := by
      rintro rfl
      rw [h.fresh j far] at there
      cases there
    rw [off j other]
    exact h.fresh j far
  · by_cases same : j = id
    · subst j
      cases Option.some.inj (here.symm.trans found)
      exact refs
    · rw [others j same]
      exact h.refs j pipe' (off j same ▸ found)
  · by_cases same : j = id
    · subst j
      rw [here]
      rfl
    · rw [off j same]
      have count := others j same
      exact h.held j (List.count_pos_iff.1 (count ▸ List.count_pos_iff.2 hj))

theorem filesRelease (h : Files p recvBytes count f holders) {pipe : PipeBuffer α}
    (found : f.pipes id = some pipe) (unheld : id ∉ holders) :
    Files p recvBytes count (f.release id pipe.chunkId) holders := by
  have here : (f.release id pipe.chunkId).pipes id = none := Function.update_self _ _ _
  have off : ∀ j, j ≠ id → (f.release id pipe.chunkId).pipes j = f.pipes j :=
    fun j other => Function.update_of_ne other _ _
  have apart : ∀ j pipe', (f.release id pipe.chunkId).pipes j = some pipe' → j ≠ id := by
    rintro j pipe' found' rfl
    rw [here] at found'
    cases found'
  refine ⟨fun j pipe' found' => ?_,fun c j listed => ?_,h.made,fun j far => ?_,fun j pipe' found' => ?_,fun j hj => ?_⟩
  · have other := apart j pipe' found'
    exact h.pipes j pipe' (off j other ▸ found')
  · have clear : c ≠ pipe.chunkId := by
      rintro rfl
      have gone : (f.release id pipe.chunkId).pipeBuffers pipe.chunkId = none := Function.update_self _ _ _
      rw [gone] at listed
      cases listed
    have listed' : f.pipeBuffers c = some j := by
      rw [← listed]
      exact (Function.update_of_ne clear _ _).symm
    obtain ⟨at',some_⟩ := h.table c j listed'
    refine ⟨at',?_⟩
    have other : j ≠ id := by
      rintro rfl
      exact clear (at'.trans (h.pipes j pipe found).chunk.symm)
    rw [off j other]
    exact some_
  · by_cases same : j = id
    · subst j
      exact here
    · rw [off j same]
      exact h.fresh j far
  · have other := apart j pipe' found'
    exact h.refs j pipe' (off j other ▸ found')
  · have other : j ≠ id := fun same => unheld (same ▸ hj)
    rw [off j other]
    exact h.held j hj

theorem filesClose (h : Files p recvBytes count f (id :: holders)) (started : Bool) :
    ∃ f', f.close id started = some f' ∧ Files p recvBytes count f' holders ∧ SameData f f' holders := by
  obtain ⟨pipe,found⟩ := Option.isSome_iff_exists.1 (h.held id List.mem_cons_self)
  have refs := h.refs id pipe found
  rw [List.count_cons_self] at refs
  have ok := h.pipes id pipe found
  have kept : Files p recvBytes count f holders := by
    refine { h with refs := fun j pipe' found' => ?_, held := fun j hj => h.held j (List.mem_cons_of_mem id hj) }
    exact Nat.le_trans List.count_le_count_cons (h.refs j pipe' found')
  have setSame : ∀ n, SameData f (f.set id { pipe with refCount := n }) holders := by
    intro n j _ pipe' found'
    by_cases same : j = id
    · subst j
      cases Option.some.inj (found.symm.trans found')
      exact ⟨_,Function.update_self _ _ _,rfl,rfl⟩
    · exact ⟨pipe',(Function.update_of_ne same _ _).trans found',rfl,rfl⟩
  simp only [FileInfo.close,found,Option.map_some]
  by_cases last : pipe.refCount - 1 = 0
  · have unheld : id ∉ holders := fun mem => by
      have := List.count_pos_iff.2 mem
      omega
    have none_ : holders.count id = 0 := List.count_eq_zero.2 unheld
    simp only [last,if_true]
    by_cases empty : pipe.data.length = 0
    · simp only [empty,if_true]
      refine ⟨_,rfl,filesRelease kept found unheld,fun j hj pipe' found' => ?_⟩
      have other : j ≠ id := fun same => unheld (same ▸ hj)
      exact ⟨pipe',(Function.update_of_ne other _ _).trans found',rfl,rfl⟩
    · simp only [empty,if_false]
      refine ⟨_,rfl,filesSet kept (by rw [found]; rfl) (pipeOkRefs ok) ?_ fun j _ => rfl,setSame _⟩
      rw [none_]
      exact Nat.zero_le _
  · simp only [last,if_false]
    refine ⟨_,rfl,filesSet kept (by rw [found]; rfl) (pipeOkRefs ok) ?_ fun j _ => rfl,setSame _⟩
    change holders.count id ≤ pipe.refCount - 1
    omega

theorem filesAddRef (h : Files p recvBytes count f holders) {pipe : PipeBuffer α} (found : f.pipes id = some pipe) :
    ∃ f', f.addRef id = some f' ∧ Files p recvBytes count f' (id :: holders) ∧ SameData f f' holders ∧
      f'.pipes id = some { pipe with refCount := pipe.refCount + 1 } := by
  refine ⟨_,by rw [FileInfo.addRef,found]; rfl,?_,fun j _ pipe' found' => ?_,Function.update_self _ _ _⟩
  · refine filesSet h (by rw [found]; rfl) (pipeOkRefs (h.pipes id pipe found)) ?_ fun j other => ?_
    · rw [List.count_cons_self]
      exact Nat.add_le_add_right (h.refs id pipe found) 1
    · exact List.count_cons_of_ne (Ne.symm other)
  · by_cases same : j = id
    · subst j
      cases Option.some.inj (found.symm.trans found')
      exact ⟨_,Function.update_self _ _ _,rfl,rfl⟩
    · exact ⟨pipe',(Function.update_of_ne same _ _).trans found',rfl,rfl⟩

theorem filesCreate (h : Files p recvBytes count f holders) :
    Files p recvBytes (count + 1) (f.create (firstChunkId p + count) (chunkSize p count)) (count :: holders) ∧
      SameData f (f.create (firstChunkId p + count) (chunkSize p count)) holders ∧
      ∃ pipe, (f.create (firstChunkId p + count) (chunkSize p count)).pipes count = some pipe ∧ pipe.data = [] := by
  have new := h.fresh count (Nat.le_refl _)
  have unheld : count ∉ holders := fun mem => by
    have := h.held count mem
    rw [new] at this
    cases this
  have here : (f.create (firstChunkId p + count) (chunkSize p count)).pipes count
      = some ⟨firstChunkId p + count,1,chunkSize p count,[]⟩ := by
    simp [FileInfo.create,PipeBuffer.make,h.made]
  have off : ∀ j, j ≠ count →
      (f.create (firstChunkId p + count) (chunkSize p count)).pipes j = f.pipes j := by
    intro j other
    simp [FileInfo.create,h.made,other]
  refine ⟨⟨fun j pipe found => ?_,fun c j listed => ?_,?_,fun j far => ?_,fun j pipe found => ?_,fun j hj => ?_⟩,
    fun j hj pipe found => ?_,_,here,rfl⟩
  · by_cases same : j = count
    · subst j
      cases Option.some.inj (here.symm.trans found)
      exact ⟨rfl,rfl,Nat.zero_le _,by simp,Or.inl rfl⟩
    · exact h.pipes j pipe (off j same ▸ found)
  · by_cases at' : c = firstChunkId p + count
    · subst c
      simp only [FileInfo.create,Function.update_self,h.made] at listed
      cases Option.some.inj listed
      rw [here]
      exact ⟨rfl,rfl⟩
    · simp only [FileInfo.create,Function.update_of_ne at'] at listed
      obtain ⟨same,some_⟩ := h.table c j listed
      have other : j ≠ count := by
        rintro rfl
        exact at' same
      rw [off j other]
      exact ⟨same,some_⟩
  · simp [FileInfo.create,h.made]
  · rw [off j (by omega)]
    exact h.fresh j (by omega)
  · by_cases same : j = count
    · subst j
      cases Option.some.inj (here.symm.trans found)
      exact Nat.le_of_eq (List.count_cons_self.trans (congrArg Nat.succ (List.count_eq_zero.2 unheld)))
    · rw [List.count_cons_of_ne (Ne.symm same)]
      exact h.refs j pipe (off j same ▸ found)
  · by_cases same : j = count
    · subst j
      rw [here]
      rfl
    · rw [off j same]
      exact h.held j ((List.mem_cons.1 hj).resolve_left same)
  · have other : j ≠ count := fun same => unheld (same ▸ hj)
    exact ⟨pipe,(off j other).trans found,rfl,rfl⟩

theorem filesWritten (h : Files p recvBytes count f holders) (id : Nat) :
    Files p recvBytes count (f.written id) holders ∧ SameData f (f.written id) holders := by
  unfold FileInfo.written
  cases found : f.pipes id with
  | none => exact ⟨h,fun j _ pipe found => ⟨pipe,found,rfl,rfl⟩⟩
  | some pipe =>
    by_cases last : pipe.refCount = 0
    · simp only [last,if_true]
      have unheld : id ∉ holders := fun mem => by
        have := List.count_pos_iff.2 mem
        have := h.refs id pipe found
        omega
      refine ⟨filesRelease h found unheld,fun j hj pipe' found' => ?_⟩
      have other : j ≠ id := fun same => unheld (same ▸ hj)
      exact ⟨pipe',(Function.update_of_ne other _ _).trans found',rfl,rfl⟩
    · simp only [last,if_false]
      exact ⟨h,fun j _ pipe found => ⟨pipe,found,rfl,rfl⟩⟩

/- Bytes written at the end of a pipe buffer. -/
theorem filesGrown (h : Files p recvBytes count f holders) {recvBytes' : Nat} {pipe pipe' : PipeBuffer α}
    (more : recvBytes ≤ recvBytes') (found : f.pipes id = some pipe) (ok : PipeOk p recvBytes' id pipe')
    (refs : pipe'.refCount = pipe.refCount) : Files p recvBytes' count (f.set id pipe') holders := by
  have later : Files p recvBytes' count f holders := by
    refine { h with pipes := fun j pipe found => ?_ }
    have was := h.pipes j pipe found
    exact ⟨was.chunk,was.size,was.short,was.data,was.behind.imp_right fun le => Nat.le_trans le more⟩
  refine filesSet later (by rw [found]; rfl) ok ?_ fun j _ => rfl
  rw [refs]
  exact h.refs id pipe found

end Files

end CuteNdk.PullPipe
