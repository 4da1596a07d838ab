import WasmMachine.Proofs.Overlay

/-!
# Memories as bytes without an end

What can be seen of a memory is how many pages it has and which byte is at each place, where all
places behind the last page hold zero (`Memory.Image`).  On such an image the operations of a
memory are plain: growing only counts pages, and whatever writes replaces the bytes of one range
by others (`Memory.Image.serve`).

* `Memory.serve_image`: a memory answers a request as its image does, and its image is then what
  the request makes of the image before.
* `Memory.serves_as_image`: so does every memory that any requests lead to from the beginning.
-/

namespace WasmMachine

theorem getD_map_range {α : Type} {n j : Nat} (lt : j < n) (f : Nat → α) (d : α) :
    ((List.range n).map f).getD j d = f j := by
  rw [List.getD_eq_getElem?_getD, List.getElem?_map, List.getElem?_range lt]
  rfl

namespace Memory

/-! ## Requests -/

/-- What can be asked of a memory. To load or store a number of some width is to read or write
as many bytes. -/
inductive Request where
  | grow (delta : Nat)
  | read (pos count : Nat)
  | write (pos : Nat) (bytes : List UInt8)
  | fill (value : UInt8) (pos count : Nat)
  | copy (dst src count : Nat)
  deriving DecidableEq, Repr

/-- What a request is answered with. -/
inductive Answer where
  /-- The number of pages before, or none if the memory cannot grow so far. -/
  | grown (before? : Option Nat)
  | bytes (bytes : List UInt8)
  | done
  | trap (cause : Trap)
  deriving DecidableEq, Repr

/-- Carry out an operation and put its result into an answer. -/
def answer {α : Type} (x : EStateM Trap Memory α) (f : α → Answer) (m : Memory) :
    Answer × Memory :=
  match x m with
  | .ok a m => (f a, m)
  | .error t m => (.trap t, m)

/-- What a memory does with a request. -/
def serve (m : Memory) : Request → Answer × Memory
  | .grow delta => m.answer (grow delta) .grown
  | .read pos count => m.answer (read pos count) .bytes
  | .write pos bytes => m.answer (write pos bytes) fun _ => .done
  | .fill value pos count => m.answer (fill value pos count) fun _ => .done
  | .copy dst src count => m.answer (copy dst src count) fun _ => .done

/-- Serve requests one after the other, whatever it is that serves them. -/
def serveAll {S : Type} (serve : S → Request → Answer × S) : S → List Request → List Answer × S
  | s, [] => ([], s)
  | s, r :: rs =>
    let (a, s) := serve s r
    let (as, s) := serveAll serve s rs
    (a :: as, s)

/-! ## Images -/

/-- What can be seen of a memory: its limits, its pages, and the byte at every place. -/
structure Image where
  limits : Limits
  pages : Nat
  byte : Nat → UInt8

namespace Image

/-- The number of places that can be accessed. -/
def size (i : Image) : Nat := i.pages * 65536

/-- The most pages that there may be. -/
def most (i : Image) : Nat := min ((i.limits.max?.map (·.toNat)).getD 65536) 65536

/-- An image with a memory's least number of pages, and nothing but zeros. -/
def blank (limits : Limits) : Image := ⟨limits, limits.min.toNat, fun _ => 0⟩

/-- The bytes of a range. -/
def range (i : Image) (pos count : Nat) : List UInt8 :=
  (List.range count).map fun j => i.byte (pos + j)

@[simp] theorem length_range (i : Image) (pos count : Nat) :
    (i.range pos count).length = count := by
  rw [range, List.length_map, List.length_range]

/-- An image in which the byte number `j` of a range is `f j`, and every other byte is as it
was. -/
def replace (i : Image) (pos count : Nat) (f : Nat → UInt8) : Image :=
  { i with byte := fun k => if pos ≤ k ∧ k < pos + count then f (k - pos) else i.byte k }

/-- What becomes of an image by a request. An access succeeds exactly if its ranges end within the
pages, and changes nothing otherwise. -/
def serve (i : Image) : Request → Answer × Image
  | .grow delta =>
    if i.pages + delta ≤ i.most then (.grown (some i.pages), { i with pages := i.pages + delta })
    else (.grown none, i)
  | .read pos count =>
    if pos + count ≤ i.size then (.bytes (i.range pos count), i)
    else (.trap .memoryBounds, i)
  | .write pos bytes =>
    if pos + bytes.length ≤ i.size then
      (.done, i.replace pos bytes.length fun j => bytes.getD j 0)
    else (.trap .memoryBounds, i)
  | .fill value pos count =>
    if pos + count ≤ i.size then (.done, i.replace pos count fun _ => value)
    else (.trap .memoryBounds, i)
  | .copy dst src count =>
    if dst + count ≤ i.size ∧ src + count ≤ i.size then
      (.done, i.replace dst count fun j => i.byte (src + j))
    else (.trap .memoryBounds, i)

end Image

/-- The byte at a place; zero where the memory has none. -/
def byte (m : Memory) (k : Nat) : UInt8 := m.bytes.data[k]?.getD 0

/-- What can be seen of a memory. -/
def image (m : Memory) : Image := ⟨m.limits, m.pages, m.byte⟩

/-! ## The bytes of a memory -/

theorem size_data (m : Memory) : m.bytes.data.size = m.size := m.whole

theorem byte_of_le {m : Memory} {k : Nat} (out : m.size ≤ k) : m.byte k = 0 := by
  rw [byte, Array.getElem?_eq_none (m.size_data ▸ out), Option.getD_none]

theorem data_pushZeros (n : Nat) (b : ByteArray) :
    (pushZeros n b).data = b.data ++ Array.replicate n 0 := by
  induction n generalizing b with
  | zero => simp [pushZeros]
  | succ n ih =>
    rw [pushZeros, ih, ByteArray.data_push, Array.replicate_succ']
    simp

/-- Zeros behind the last byte cannot be seen. -/
theorem getD_pushZeros (n : Nat) (b : ByteArray) (k : Nat) :
    (pushZeros n b).data[k]?.getD 0 = b.data[k]?.getD 0 := by
  rw [data_pushZeros, Array.getElem?_append]
  split
  · rfl
  · next out =>
    rw [Array.getElem?_eq_none (Nat.le_of_not_lt out), Array.getElem?_replicate]
    split <;> rfl

theorem get!_eq (b : ByteArray) (k : Nat) : b.get! k = b.data[k]?.getD 0 := by
  obtain ⟨bytes⟩ := b
  exact Array.getElem!_eq_getD.trans (Array.getD_eq_getD_getElem? ..)

theorem sliceBytes_eq (b : ByteArray) (pos n : Nat) (acc : List UInt8) : sliceBytes b pos n acc =
    (List.range n).map (fun j => b.data[pos + j]?.getD 0) ++ acc := by
  induction n generalizing acc with
  | zero => rfl
  | succ n ih =>
    rw [sliceBytes, ih, List.range_succ, List.map_append, List.append_assoc, get!_eq]
    rfl

/-- More pages cannot be seen in the bytes. -/
theorem byte_resize {m : Memory} {pages : Nat} (more : m.pages ≤ pages) (k : Nat) :
    (m.resize pages).byte k = m.byte k := by
  have size : m.bytes.size ≤ pages * pageSize :=
    Nat.le_trans (Nat.le_of_eq m.whole) (Nat.mul_le_mul_right pageSize more)
  have bytes : resizeBytes (pages * pageSize) m.bytes
      = pushZeros (pages * pageSize - m.bytes.size) m.bytes := if_neg (Nat.not_lt.mpr size)
  simp only [byte, resize, bytes, getD_pushZeros]

/-- The given bytes are at their places, and all others are as before. -/
theorem byte_put {m : Memory} {pos : Nat} {bs : List UInt8}
    (fits : pos + bs.length ≤ m.size) (k : Nat) :
    (m.put pos bs).byte k =
      if pos ≤ k ∧ k < pos + bs.length then bs.getD (k - pos) 0 else m.byte k := by
  have bytes : (m.put pos bs).bytes.data = overwriteItems m.bytes.data pos bs :=
    congrArg ByteArray.data (overwrite_eq ..)
  rw [byte, bytes, getElem?_overwriteItems, Patch.at?]
  by_cases behind : pos ≤ k
  · by_cases ahead : k < pos + bs.length
    · have within : k < m.bytes.data.size := m.size_data ▸ Nat.lt_of_lt_of_le ahead fits
      have there := Array.getElem?_eq_getElem within
      have item : k - pos < bs.length := by omega
      simp [behind, ahead, there, item]
    · have none : bs[k - pos]? = none := List.getElem?_eq_none (by omega)
      simp [behind, ahead, none, byte]
  · simp [behind, byte]

theorem read_of_le {m : Memory} {pos count : Nat} (fits : pos + count ≤ m.size) :
    read pos count m = .ok (m.image.range pos count) m := by
  rw [read, if_pos fits, sliceBytes_eq, List.append_nil]
  rfl

/-- Nothing of a memory escapes its image. -/
theorem eq_of_image {m m' : Memory} (same : m.image = m'.image) : m = m' := by
  have limits : m.limits = m'.limits := congrArg Image.limits same
  have pages : m.pages = m'.pages := congrArg Image.pages same
  have size : m.bytes.data.size = m'.bytes.data.size := by
    rw [size_data, size_data, Memory.size, pages, Memory.size]
  refine Memory.ext limits pages (ByteArray.ext (Array.ext size fun k lt lt' => ?_))
  have byte := congrFun (congrArg Image.byte same) k
  dsimp only [image, Memory.byte] at byte
  rwa [Array.getElem?_eq_getElem lt, Array.getElem?_eq_getElem lt'] at byte

/-! ## Serving requests -/

theorem maxPages_eq_most (m : Memory) : m.maxPages = m.image.most := by
  unfold maxPages Image.most image
  cases m.limits.max? <;> rfl

theorem image_put {m : Memory} {pos : Nat} {bs : List UInt8} {count : Nat} {f : Nat → UInt8}
    (fits : pos + count ≤ m.size) (length : bs.length = count)
    (items : ∀ j < count, bs.getD j 0 = f j) :
    (m.put pos bs).image = m.image.replace pos count f := by
  subst length
  refine congrArg (Image.mk m.limits m.pages) (funext fun k => ?_)
  rw [byte_put fits]
  split
  · exact items _ (by omega)
  · rfl

/-- The bytes that were put at their places are found there. -/
theorem range_put {m : Memory} {pos : Nat} {bs : List UInt8} (fits : pos + bs.length ≤ m.size) :
    (m.put pos bs).image.range pos bs.length = bs := by
  refine List.ext_getElem (Image.length_range _ _ _) fun j _ there => ?_
  have within : pos ≤ pos + j ∧ pos + j < pos + bs.length := by omega
  simp only [Image.range, List.getElem_map, List.getElem_range]
  refine (byte_put fits (pos + j)).trans ?_
  rw [if_pos within, Nat.add_sub_cancel_left, List.getD_eq_getElem?_getD,
    List.getElem?_eq_getElem there, Option.getD_some]

theorem fill_eq_write (value : UInt8) (pos count : Nat) :
    fill value pos count = write pos (List.replicate count value) := by
  funext m
  rw [fill, write, List.length_replicate]
  split <;> rfl

theorem copy_eq_write (dst src count : Nat) (m : Memory) : copy dst src count m =
    if src + count ≤ m.size then write dst (m.image.range src count) m
    else .error .memoryBounds m := by
  have reads : (do write dst (← read src count) : EStateM Trap Memory Unit) m
      = if src + count ≤ m.size then write dst (m.image.range src count) m
        else .error .memoryBounds m := by
    change EStateM.bind (read src count) (write dst) m = _
    by_cases there : src + count ≤ m.size
    · rw [EStateM.bind, read_of_le there, if_pos there]
    · rw [EStateM.bind, read, if_neg there, if_neg there]
  rw [copy, reads, write, Image.length_range]
  by_cases fits : dst + count ≤ m.size
  · rw [if_pos fits]
  · rw [if_neg fits, if_neg fits, ite_self]

/-- What a write does to a memory replaces a range of its image, or nothing. -/
theorem answer_write {m : Memory} {pos count : Nat} {bs : List UInt8} {f : Nat → UInt8}
    (length : bs.length = count) (items : ∀ j < count, bs.getD j 0 = f j) :
    (m.answer (write pos bs) fun _ => .done).map id image =
      if pos + count ≤ m.size then (.done, m.image.replace pos count f)
      else (.trap .memoryBounds, m.image) := by
  rw [answer, write, length]
  by_cases fits : pos + count ≤ m.size
  · rw [if_pos fits, if_pos fits]
    exact congrArg (Prod.mk Answer.done) (image_put fits length items)
  · rw [if_neg fits, if_neg fits]
    rfl

/-- A memory answers a request as its image does, and what becomes of it looks like what
becomes of its image. -/
theorem serve_image (m : Memory) (r : Request) : (m.serve r).map id image = m.image.serve r := by
  have size : m.image.size = m.size := rfl
  cases r with
  | grow delta =>
    have more : m.image.pages = m.pages := rfl
    rw [serve, answer, grow, Image.serve, more, maxPages_eq_most]
    by_cases room : m.pages + delta ≤ m.image.most
    · simp only [room, if_true]
      have bytes : (m.resize (m.pages + delta)).byte = m.byte :=
        funext (byte_resize (Nat.le_add_right ..))
      rw [Prod.map_apply, image, bytes]
      rfl
    · simp only [room, if_false]
      rfl
  | read pos count =>
    rw [serve, answer, Image.serve, size]
    by_cases fits : pos + count ≤ m.size
    · rw [read_of_le fits, if_pos fits]
      rfl
    · rw [read, if_neg fits, if_neg fits]
      rfl
  | write pos bs => exact answer_write rfl fun j _ => rfl
  | fill value pos count =>
    rw [serve, fill_eq_write]
    refine answer_write List.length_replicate fun j there => ?_
    rw [List.getD_eq_getElem?_getD, List.getElem?_replicate, if_pos there, Option.getD_some]
  | copy dst src count =>
    rw [serve, answer, copy_eq_write, Image.serve, size]
    by_cases there : src + count ≤ m.size
    · rw [if_pos there]
      simp only [there, and_true]
      exact answer_write (Image.length_range _ _ _) fun j lt => getD_map_range lt _ _
    · simp only [there, if_false, and_false]
      rfl

/-! ## Serving any requests -/

theorem image_new (limits : Limits) : (new limits).image = .blank limits :=
  congrArg (Image.mk limits limits.min.toNat) (funext fun k => getD_pushZeros _ ByteArray.empty k)

/-- A memory serves any requests as its image does. -/
theorem serveAll_image (m : Memory) (rs : List Request) :
    (serveAll serve m rs).map id image = serveAll Image.serve m.image rs := by
  induction rs generalizing m with
  | nil => rfl
  | cons r rs ih =>
    have step := serve_image m r
    have rest := ih (m.serve r).2
    change _ = ((m.image.serve r).1 :: (serveAll Image.serve (m.image.serve r).2 rs).1,
      (serveAll Image.serve (m.image.serve r).2 rs).2)
    rw [← step]
    exact congrArg (fun served => ((m.serve r).1 :: served.1, served.2)) rest

/-- Whatever has been asked of a memory from its beginning, it has answered as an image does that
is blank at first, and looks like what has become of that. It stores as many bytes as it has pages
for, behind which its image has zeros only, and no other memory looks like it. -/
theorem serves_as_image (limits : Limits) (rs : List Request) :
    ∃ answers m, serveAll serve (.new limits) rs = (answers, m) ∧
      serveAll Image.serve (.blank limits) rs = (answers, m.image) ∧
      m.bytes.size = m.image.pages * 65536 ∧ (∀ k, m.bytes.size ≤ k → m.image.byte k = 0) ∧
      ∀ m' : Memory, m'.image = m.image → m' = m := by
  have same := serveAll_image (.new limits) rs
  rw [image_new] at same
  generalize serveAll serve (.new limits) rs = served at same ⊢
  obtain ⟨answers, m⟩ := served
  exact ⟨answers, m, rfl, same.symm, m.whole,
    fun k out => byte_of_le (Nat.le_trans (Nat.le_of_eq m.whole.symm) out), fun m' => eq_of_image⟩

end Memory

end WasmMachine
