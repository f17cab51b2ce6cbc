import CuteNdk.MemPool
import CuteNdk.Lib.Tiling

/-! The chunks of one slab: a list that is linked both ways and tiles the slab. What a
new chunk and a merge do to it is said of the headers as a whole; the bytes come in only
where a header is read or written. -/
namespace CuteNdk.MemPool
open Lib.Bytes (Memory load store loadCongr loadStore loadStoreApart storeOutside)
open Lib (Dll Tiles dllSplice dllNeighbours dllSeam dllNodup dllCongr tailOther tilesCongr tilesCut tilesJoin tilesRange tilesApart)

/- Two headers that do not overlap. -/
def Apart (h h' : Nat) : Prop := h + sizeofObjHeader ≤ h' ∨ h' + sizeofObjHeader ≤ h

def pointer (a : Nat) : Option Nat := if a = 0 then none else some a

section Headers
variable {m m' : Memory} {h h' : Nat} {v : Nat}

theorem headerCongr (same : ∀ a, h ≤ a → a < h + sizeofObjHeader → m' a = m a) : header m' h = header m h := by
  have word (w off : Nat) (inside : off + w ≤ sizeofObjHeader) : load w m' (h + off) = load w m (h + off) :=
    loadCongr fun a low high => same a (by omega) (by omega)
  unfold header
  rw [show load 4 m' h = load 4 m h from word 4 0 (by decide),word 4 4 (by decide),word 8 8 (by decide),
    word 8 16 (by decide),word 8 24 (by decide)]

theorem headerStoreApart {w : Nat} (off : Nat) (inside : off + w ≤ sizeofObjHeader) (apart : Apart h h') :
    header (store w m (h + off) v) h' = header m h' := by
  unfold Apart at apart
  exact headerCongr fun a low high => storeOutside (by omega)

theorem headerSetInuse (fits : v < 256 ^ 4) : header (setInuse m h v) h = { header m h with inuse := v } := by
  unfold header setInuse
  rw [loadStore fits,loadStoreApart (by omega),loadStoreApart (by omega),loadStoreApart (by omega),loadStoreApart (by omega)]

theorem headerSetSize (fits : v < 256 ^ 4) : header (setSize m h v) h = { header m h with size := v } := by
  unfold header setSize
  rw [loadStore fits,loadStoreApart (by omega),loadStoreApart (by omega),loadStoreApart (by omega),loadStoreApart (by omega)]

theorem headerSetSlab (fits : v < 256 ^ 8) : header (setSlab m h v) h = { header m h with slab := v } := by
  unfold header setSlab
  rw [loadStore fits,loadStoreApart (by omega),loadStoreApart (by omega),loadStoreApart (by omega),loadStoreApart (by omega)]

theorem headerSetPrev (fits : v < 256 ^ 8) : header (setPrev m h v) h = { header m h with prev := v } := by
  unfold header setPrev
  rw [loadStore fits,loadStoreApart (by omega),loadStoreApart (by omega),loadStoreApart (by omega),loadStoreApart (by omega)]

theorem headerSetNext (fits : v < 256 ^ 8) : header (setNext m h v) h = { header m h with next := v } := by
  unfold header setNext
  rw [loadStore fits,loadStoreApart (by omega),loadStoreApart (by omega),loadStoreApart (by omega),loadStoreApart (by omega)]

end Headers

/- The headers in S as φ has them, in a memory that is m₀ outside start to stop. -/
structure View (start stop : Nat) (S : List Nat) (m₀ m : Memory) (φ : Nat → ObjHeader) : Prop where
  apart : ∀ h ∈ S, ∀ h' ∈ S, h ≠ h' → Apart h h'
  inside : ∀ h ∈ S, start ≤ h ∧ h + sizeofObjHeader ≤ stop
  reads : ∀ h ∈ S, header m h = φ h
  kept : ∀ a, a < start ∨ stop ≤ a → m a = m₀ a

section Views
variable {start stop : Nat} {S : List Nat} {m₀ m : Memory} {φ : Nat → ObjHeader} {h : Nat} {v : Nat}

/- A store to one header of the view. -/
theorem viewStore (w off : Nat) (view : View start stop S m₀ m φ) (mem : h ∈ S) (inside : off + w ≤ sizeofObjHeader)
    {x : ObjHeader} (reads : header (store w m (h + off) v) h = x) :
    View start stop S m₀ (store w m (h + off) v) (Function.update φ h x) := by
  refine ⟨view.apart,view.inside,fun h' mem' => ?_,fun a outside => ?_⟩
  · by_cases same : h' = h
    · subst same
      rw [reads,Function.update_self]
    · rw [headerStoreApart off inside (view.apart h mem h' mem' (Ne.symm same)),Function.update_of_ne same]
      exact view.reads h' mem'
  · have range := view.inside h mem
    rw [storeOutside (by omega)]
    exact view.kept a outside

theorem viewSetInuse (view : View start stop S m₀ m φ) (mem : h ∈ S) (fits : v < 256 ^ 4) :
    View start stop S m₀ (setInuse m h v) (Function.update φ h { φ h with inuse := v }) := by
  have reads := @headerSetInuse m h v fits
  rw [view.reads h mem] at reads
  exact viewStore 4 0 view mem (by decide) reads

theorem viewSetSize (view : View start stop S m₀ m φ) (mem : h ∈ S) (fits : v < 256 ^ 4) :
    View start stop S m₀ (setSize m h v) (Function.update φ h { φ h with size := v }) := by
  have reads := @headerSetSize m h v fits
  rw [view.reads h mem] at reads
  exact viewStore 4 4 view mem (by decide) reads

theorem viewSetSlab (view : View start stop S m₀ m φ) (mem : h ∈ S) (fits : v < 256 ^ 8) :
    View start stop S m₀ (setSlab m h v) (Function.update φ h { φ h with slab := v }) := by
  have reads := @headerSetSlab m h v fits
  rw [view.reads h mem] at reads
  exact viewStore 8 8 view mem (by decide) reads

theorem viewSetPrev (view : View start stop S m₀ m φ) (mem : h ∈ S) (fits : v < 256 ^ 8) :
    View start stop S m₀ (setPrev m h v) (Function.update φ h { φ h with prev := v }) := by
  have reads := @headerSetPrev m h v fits
  rw [view.reads h mem] at reads
  exact viewStore 8 16 view mem (by decide) reads

theorem viewSetNext (view : View start stop S m₀ m φ) (mem : h ∈ S) (fits : v < 256 ^ 8) :
    View start stop S m₀ (setNext m h v) (Function.update φ h { φ h with next := v }) := by
  have reads := @headerSetNext m h v fits
  rw [view.reads h mem] at reads
  exact viewStore 8 24 view mem (by decide) reads

end Views

def nextOf (φ : Nat → ObjHeader) (h : Nat) : Option Nat := pointer (φ h).next
def prevOf (φ : Nat → ObjHeader) (h : Nat) : Option Nat := pointer (φ h).prev

/- The bytes of a chunk, its header included. -/
def extent (φ : Nat → ObjHeader) (h : Nat) : Nat := sizeofObjHeader + (φ h).size

/- The chunks of a slab from start to stop. -/
structure Chunks (φ : Nat → ObjHeader) (slab start stop : Nat) (hs : List Nat) : Prop where
  linked : Dll (nextOf φ) (prevOf φ) hs.head? hs.getLast? hs
  tiles : Tiles (extent φ) start hs stop
  owner : ∀ h ∈ hs, (φ h).slab = slab

/- The chunk n after f becomes part of f. -/
structure Joined (φ φ' : Nat → ObjHeader) (l₁ : List Nat) (f n : Nat) (l₂ : List Nat) : Prop where
  at_ : φ' f = { φ f with size := (φ f).size + (sizeofObjHeader + (φ n).size), next := (φ n).next }
  before : ∀ h ∈ l₁, φ' h = φ h
  after : ∀ h ∈ l₂, φ' h = { φ h with prev := if l₂.head? = some h then f else (φ h).prev }

/- The chunk f gives its last bytes to a new chunk g, of left bytes. -/
structure Split (φ φ' : Nat → ObjHeader) (slab : Nat) (l₁ : List Nat) (f g : Nat) (l₂ : List Nat) (allocSize left : Nat) :
    Prop where
  at_ : φ' f = { φ f with size := allocSize, next := g }
  new : φ' g = ⟨(φ g).inuse,left,slab,f,(φ f).next⟩
  before : ∀ h ∈ l₁, φ' h = φ h
  after : ∀ h ∈ l₂, φ' h = { φ h with prev := if l₂.head? = some h then g else (φ h).prev }

theorem pointerSome {a : Nat} (some_ : 0 < a) : pointer a = some a := if_neg (Nat.ne_of_gt some_)

theorem pointerTo {a b : Nat} (points : pointer a = some b) : a = b := by
  unfold pointer at points
  split at points
  · cases points
  · exact Option.some.inj points

theorem pointerNull {a : Nat} (null : pointer a = none) : a = 0 := by
  unfold pointer at null
  split at null
  · assumption
  · cases null

section Lists
variable {φ φ' : Nat → ObjHeader} {slab start stop : Nat} {hs l₁ l₂ : List Nat} {f n g : Nat}

theorem chunksCongr (c : Chunks φ slab start stop hs) (same : ∀ h ∈ hs, φ' h = φ h) : Chunks φ' slab start stop hs := by
  refine ⟨dllCongr c.linked (fun h mem => ?_) (fun h mem => ?_),tilesCongr (fun h mem => ?_) c.tiles,fun h mem => ?_⟩
  · unfold nextOf
    rw [same h mem]
  · unfold prevOf
    rw [same h mem]
  · unfold extent
    rw [same h mem]
  · rw [same h mem]
    exact c.owner h mem

theorem chunkRange (c : Chunks φ slab start stop hs) {h : Nat} (mem : h ∈ hs) :
    start ≤ h ∧ h + sizeofObjHeader + (φ h).size ≤ stop := by
  have range := (tilesRange c.tiles).2 h mem
  unfold extent at range
  omega

theorem chunksApart (c : Chunks φ slab start stop hs) {h h' : Nat} (mem : h ∈ hs) (mem' : h' ∈ hs) (other : h ≠ h') :
    h + sizeofObjHeader + (φ h).size ≤ h' ∨ h' + sizeofObjHeader + (φ h').size ≤ h := by
  have apart := tilesApart c.tiles mem mem' other
  unfold extent at apart
  omega

theorem chunksJoin (c : Chunks φ slab start stop (l₁ ++ f :: n :: l₂)) (some_ : 0 < f)
    (joined : Joined φ φ' l₁ f n l₂) : Chunks φ' slab start stop (l₁ ++ f :: l₂) := by
  have seam := dllSeam c.linked
  have afterF := dllNeighbours c.linked
  have afterN : nextOf φ n = l₂.head? :=
    (dllNeighbours (show Dll (nextOf φ) (prevOf φ) _ _ ((l₁ ++ [f]) ++ n :: l₂) by simpa using c.linked)).1
  have nodup := dllNodup c.linked
  have nodup₂ : l₂.Nodup := (List.nodup_cons.1 (List.nodup_cons.1 (List.nodup_append.1 nodup).2.1).2).2
  refine ⟨?_,?_,fun h mem => ?_⟩
  · change Dll (nextOf φ') (prevOf φ') (l₁ ++ ([f] ++ l₂)).head? (l₁ ++ ([f] ++ l₂)).getLast? (l₁ ++ ([f] ++ l₂))
    have linked : Dll (nextOf φ) (prevOf φ) _ _ (l₁ ++ ([f,n] ++ l₂)) := c.linked
    refine dllSplice linked (fun a mem => ?_) (fun a last => ?_) ⟨rfl,?_⟩ (fun a mem => ?_)
      (fun a mem => ?_) ⟨by simp,?_⟩ (fun a first => ?_) fun a mem => ?_
    · unfold nextOf
      rw [joined.before a (List.dropLast_subset _ mem)]
    · unfold nextOf
      rw [joined.before a (List.mem_of_getLast? last)]
      exact seam.1 a last
    · unfold nextOf
      rw [joined.at_]
      exact afterN
    · unfold nextOf
      rw [joined.after a mem]
    · unfold prevOf
      rw [joined.before a mem]
    · unfold prevOf
      rw [joined.at_]
      exact afterF.2
    · have isFirst : l₂.head? = some a := first
      unfold prevOf
      rw [joined.after a (List.mem_of_head? first),if_pos isFirst,List.getLast?_concat]
      exact pointerSome some_
    · unfold prevOf
      rw [joined.after a (List.mem_of_mem_tail mem),if_neg (tailOther nodup₂ mem)]
  · refine tilesJoin c.tiles (fun h mem => ?_) ?_
    · unfold extent
      rcases List.mem_append.1 mem with mem | mem
      · rw [joined.before h mem]
      · rw [joined.after h mem]
    · unfold extent
      rw [joined.at_]
      simp only
      omega
  · rcases List.mem_append.1 mem with mem | mem
    · rw [joined.before h mem]
      exact c.owner h (List.mem_append_left _ mem)
    · rcases List.mem_cons.1 mem with rfl | mem
      · rw [joined.at_]
        exact c.owner h (List.mem_append_right _ List.mem_cons_self)
      · rw [joined.after h mem]
        exact c.owner h (List.mem_append_right _ (List.mem_cons_of_mem _ (List.mem_cons_of_mem _ mem)))

theorem chunksSplit {allocSize left : Nat} (c : Chunks φ slab start stop (l₁ ++ f :: l₂))
    (here : g = f + sizeofObjHeader + allocSize) (fits : allocSize + sizeofObjHeader + left = (φ f).size)
    (split : Split φ φ' slab l₁ f g l₂ allocSize left) (some_ : 0 < f) :
    Chunks φ' slab start stop (l₁ ++ f :: g :: l₂) := by
  have later : 0 < g := by omega
  have seam := dllSeam c.linked
  have afterF := dllNeighbours c.linked
  have nodup₂ : l₂.Nodup := (List.nodup_cons.1 (List.nodup_append.1 (dllNodup c.linked)).2.1).2
  refine ⟨?_,?_,fun h mem => ?_⟩
  · change Dll (nextOf φ') (prevOf φ') (l₁ ++ ([f,g] ++ l₂)).head? (l₁ ++ ([f,g] ++ l₂)).getLast? (l₁ ++ ([f,g] ++ l₂))
    have linked : Dll (nextOf φ) (prevOf φ) _ _ (l₁ ++ ([f] ++ l₂)) := c.linked
    refine dllSplice linked (fun a mem => ?_) (fun a last => ?_) ⟨rfl,?_,?_⟩ (fun a mem => ?_)
      (fun a mem => ?_) ⟨by simp,?_,?_⟩ (fun a first => ?_) fun a mem => ?_
    · unfold nextOf
      rw [split.before a (List.dropLast_subset _ mem)]
    · unfold nextOf
      rw [split.before a (List.mem_of_getLast? last)]
      exact seam.1 a last
    · unfold nextOf
      rw [split.at_]
      exact pointerSome later
    · unfold nextOf
      rw [split.new]
      exact afterF.1
    · unfold nextOf
      rw [split.after a mem]
    · unfold prevOf
      rw [split.before a mem]
    · unfold prevOf
      rw [split.new]
      exact pointerSome some_
    · unfold prevOf
      rw [split.at_]
      exact afterF.2
    · have isFirst : l₂.head? = some a := first
      unfold prevOf
      rw [split.after a (List.mem_of_head? first),if_pos isFirst]
      rw [show l₁ ++ [f,g] = (l₁ ++ [f]) ++ [g] by simp,List.getLast?_concat]
      exact pointerSome later
    · unfold prevOf
      rw [split.after a (List.mem_of_mem_tail mem),if_neg (tailOther nodup₂ mem)]
  · refine tilesCut c.tiles (fun h mem => ?_) ?_ ?_
    · unfold extent
      rcases List.mem_append.1 mem with mem | mem
      · rw [split.before h mem]
      · rw [split.after h mem]
    · unfold extent
      rw [split.at_]
      simp only
      omega
    · unfold extent
      rw [split.new]
      simp only
      omega
  · rcases List.mem_append.1 mem with mem | mem
    · rw [split.before h mem]
      exact c.owner h (List.mem_append_left _ mem)
    · rcases List.mem_cons.1 mem with rfl | mem
      · rw [split.at_]
        exact c.owner h (List.mem_append_right _ List.mem_cons_self)
      · rcases List.mem_cons.1 mem with rfl | mem
        · rw [split.new]
        · rw [split.after h mem]
          exact c.owner h (List.mem_append_right _ (List.mem_cons_of_mem _ mem))

end Lists

end CuteNdk.MemPool
