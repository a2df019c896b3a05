import Chip8.Proofs.Memory
import Chip8.Proofs.Work

/-!
# The latest write

Memory is a map from addresses to bytes.  After any accesses, refused ones among them, a byte is what
the latest write that covers it has put there, or what it was at first (`mapsBytes_afterAll`).  Nothing
else is left of the accesses: no write makes memory longer or shorter or moves its bytes.

A write is taken here step by step: the stretch is checked, then the buffer is turned into bytes, then
these are put in place of as many others.  So that a refused write changes nothing is proved of it, and
`on_write` says that these steps are what `Memory.write` and `Memory.writeNumbers` do.
-/

namespace Chip8

namespace Memory

/-! ## Accesses -/

/-- What is written: bytes, or numbers that have to be bytes. -/
inductive Buffer where
  | bytes (data : List UInt8)
  | numbers (values : List Int)
deriving DecidableEq, Repr

namespace Buffer

/-- The numbers in the buffer. -/
def values : Buffer → List Int
  | .bytes data => data.map fun b => (b.toNat : Int)
  | .numbers values => values

/-- The buffer as bytes. -/
def bytes? : Buffer → Option (List UInt8)
  | .bytes data => some data
  | .numbers values => values.mapM Bits.byte?

end Buffer

/-- A use of memory. -/
inductive Access where
  | read (addr : Int) (length : Nat)
  | write (addr : Int) (buffer : Buffer)
  | fetch (addr : Int)
deriving DecidableEq, Repr

/-- What an access gives. -/
inductive Answer where
  | bytes (data : List UInt8)
  | word (w : Nat)
  | done
deriving DecidableEq, Repr

/-- Writes a buffer. -/
def writeBuffer (m : Memory) (addr : Int) : Buffer → Except Fault Memory
  | .bytes data => m.write addr data
  | .numbers values => m.writeNumbers addr values

namespace Access

/-- The address at which the stretch of the access begins. -/
def addr : Access → Int
  | .read addr _ => addr
  | .write addr _ => addr
  | .fetch addr => addr

/-- The numbers that are to be stored. -/
def values : Access → List Int
  | .write _ buffer => buffer.values
  | _ => []

/-- The length of the stretch. -/
def length : Access → Nat
  | .read _ length => length
  | .write _ buffer => buffer.values.length
  | .fetch _ => opcodeSize

/-- The access, step by step. -/
def work : Access → Work Fault Memory Answer
  | .read addr length => do
    return .bytes (← ofExcept ((← get).read addr length))
  | .write addr buffer => do
    ofExcept ((← get).check addr buffer.values.length)
    match buffer.bytes? with
    | some data =>
      modify fun m => m.replace addr.toNat data
      return .done
    | none => throw .notByte
  | .fetch addr => do
    return .word (← ofExcept ((← get).fetch addr))

end Access

/-- The memory after accesses in order, of which each finds what the one before has left. -/
def afterAll (m : Memory) (accesses : List Access) : Memory :=
  accesses.foldl (fun m a => a.work.left m) m

/-! ## What an access asks for -/

namespace Access

/-- The stretch begins in no negative place and ends within so many bytes. -/
def InRange (a : Access) (size : Nat) : Prop :=
  0 ≤ a.addr ∧ a.addr + a.length ≤ size

/-- What is to be stored are bytes. -/
def HasBytes (a : Access) : Prop :=
  ∀ n ∈ a.values, 0 ≤ n ∧ n ≤ 0xFF

instance (a : Access) (size : Nat) : Decidable (a.InRange size) :=
  inferInstanceAs (Decidable (_ ∧ _))

instance (a : Access) : Decidable a.HasBytes :=
  inferInstanceAs (Decidable (∀ n ∈ a.values, 0 ≤ n ∧ n ≤ 0xFF))

/-- The number that the access stores at an address of a memory of this size, if it stores one. -/
def stored? (size : Nat) (x : Nat) (a : Access) : Option Int :=
  if a.InRange size ∧ a.HasBytes ∧ a.addr ≤ x then a.values[x - a.addr.toNat]? else none

end Access

/-- The number that was stored last at an address, or else the one that was there at first. -/
def latest (m : Memory) (accesses : List Access) (x : Nat) : Int :=
  (accesses.filterMap (·.stored? m.size x)).getLast?.getD (m.byteAt x).toNat

/-! ## One access -/

section Access

variable {m next : Memory} {a : Access} {f : Fault} {answer : Answer} {x : Nat}

theorem Buffer.bytes?_eq_some_iff {b : Buffer} {data : List UInt8} :
    b.bytes? = some data ↔ b.values = data.map fun c => (c.toNat : Int) := by
  cases b with
  | bytes given =>
      have hInjective : Function.Injective fun c : UInt8 => (c.toNat : Int) := fun c d h =>
        UInt8.toNat_inj.1 (Int.ofNat_inj.1 h)
      rw [bytes?, values, (List.map_injective_iff.2 hInjective).eq_iff, Option.some_inj]
  | numbers values => exact mapM_byte?_eq_some_iff

theorem exists_byte?_iff {n : Int} : (∃ b, Bits.byte? n = some b) ↔ 0 ≤ n ∧ n ≤ 0xFF := by
  constructor
  · rintro ⟨b, hb⟩
    have hValue := Bits.byte?_eq_some_iff.1 hb
    have hLess := b.toNat_lt
    omega
  · intro h
    exact ⟨_, if_pos h⟩

theorem Buffer.exists_bytes?_iff {b : Buffer} :
    (∃ data, b.bytes? = some data) ↔ ∀ n ∈ b.values, 0 ≤ n ∧ n ≤ 0xFF := by
  constructor
  · rintro ⟨data, hData⟩ n hn
    rw [bytes?_eq_some_iff.1 hData] at hn
    obtain ⟨c, -, rfl⟩ := List.mem_map.1 hn
    exact exists_byte?_iff.1 ⟨c, Bits.byte?_eq_some_iff.2 rfl⟩
  · intro h
    obtain ⟨data, hData⟩ := exists_forall₂ fun n hn => exists_byte?_iff.2 (h n hn)
    exact ⟨data, bytes?_eq_some_iff.2 (mapM_byte?_eq_some_iff.1 (mapM_eq_some_iff.2 hData))⟩

/-- A buffer is written if the stretch is there and the buffer has bytes, in this order. -/
theorem writeBuffer_eq (m : Memory) (addr : Int) (b : Buffer) :
    m.writeBuffer addr b = (do
      m.check addr b.values.length
      match b.bytes? with
      | some data => return m.replace addr.toNat data
      | none => throw .notByte) := by
  cases b with
  | bytes data =>
      rw [writeBuffer, write, Buffer.values, List.length_map]
      rfl
  | numbers values => rfl

theorem writeBuffer_eq_ok_iff {addr : Int} {b : Buffer} :
    m.writeBuffer addr b = .ok next ↔ m.Covers addr b.values.length ∧
      ∃ data, b.bytes? = some data ∧ next = m.replace addr.toNat data := by
  rw [writeBuffer_eq, bind_eq_ok_iff]
  constructor
  · rintro ⟨u, hCheck, hNext⟩
    refine ⟨check_eq_ok_iff.1 hCheck, ?_⟩
    split at hNext
    · next data hData =>
        cases hNext
        exact ⟨data, hData, rfl⟩
    · cases hNext
  · rintro ⟨hCovers, data, hData, rfl⟩
    exact ⟨(), check_eq_ok_iff.2 hCovers, by rw [hData]; rfl⟩

theorem writeBuffer_eq_error_iff {addr : Int} {b : Buffer} :
    m.writeBuffer addr b = .error f ↔
      ¬m.Covers addr b.values.length ∧ f = .badAddress addr b.values.length ∨
        m.Covers addr b.values.length ∧ (¬∃ data, b.bytes? = some data) ∧ f = .notByte := by
  rw [writeBuffer_eq, bind_eq_error_iff, check_eq_error_iff]
  refine or_congr_right ⟨?_, ?_⟩
  · rintro ⟨u, hCheck, hNext⟩
    refine ⟨check_eq_ok_iff.1 hCheck, ?_⟩
    split at hNext
    · cases hNext
    · next hNone =>
        cases hNext
        refine ⟨?_, rfl⟩
        rintro ⟨data, hData⟩
        cases hNone.symm.trans hData
  · rintro ⟨hCovers, hNone, rfl⟩
    refine ⟨(), check_eq_ok_iff.2 hCovers, ?_⟩
    rw [Option.eq_none_iff_forall_ne_some.2 fun data hData => hNone ⟨data, hData⟩]
    rfl

/-- The steps of a write are what writing a buffer does, and none is taken back. -/
theorem on_write (m : Memory) (addr : Int) (b : Buffer) :
    (Access.write addr b).work.on m =
      match m.writeBuffer addr b with
      | .ok next => (.ok .done, next)
      | .error f => (.error f, m) := by
  rw [writeBuffer_eq]
  simp only [Access.work, Work.on_bind, Work.on_get, Work.on_ofExcept]
  cases m.check addr b.values.length with
  | error f => rfl
  | ok u =>
      cases b.bytes? with
      | some data => rfl
      | none => rfl

theorem on_read (m : Memory) (addr : Int) (n : Nat) :
    (Access.read addr n).work.on m = ((m.read addr n).map .bytes, m) := by
  simp only [Access.work, Work.on_bind, Work.on_get, Work.on_ofExcept]
  cases m.read addr n with
  | error f => rfl
  | ok data => rfl

theorem on_fetch (m : Memory) (addr : Int) :
    (Access.fetch addr).work.on m = ((m.fetch addr).map .word, m) := by
  simp only [Access.work, Work.on_bind, Work.on_get, Work.on_ofExcept]
  cases m.fetch addr with
  | error f => rfl
  | ok w => rfl

/-- An access is refused for its stretch, or else for its numbers, and leaves memory as it was. -/
theorem on_eq_error_iff : a.work.on m = (.error f, next) ↔ next = m ∧
    (¬a.InRange m.size ∧ f = .badAddress a.addr a.length ∨
      a.InRange m.size ∧ ¬a.HasBytes ∧ f = .notByte) := by
  -- Reading and fetching store nothing, so their numbers are never at fault.
  have hLook : ∀ {α : Type} (r : Except Fault α) (answer : α → Answer),
      (r.map answer, m) = (.error f, next) ↔ next = m ∧ r = .error f := by
    intro α r answer
    cases r with
    | ok value => simp [Except.map]
    | error g => simp [Except.map, and_comm, eq_comm]
  cases a with
  | read addr n =>
      have hBytes : (Access.read addr n).HasBytes := List.forall_mem_nil _
      rw [on_read, hLook, read_eq_error_iff]
      simp only [hBytes, not_true_eq_false, false_and, and_false, or_false]
      rfl
  | write addr b =>
      have hBytes : (∃ data, b.bytes? = some data) ↔ (Access.write addr b).HasBytes :=
        Buffer.exists_bytes?_iff
      have hRefused : m.writeBuffer addr b = .error f ↔ _ := writeBuffer_eq_error_iff
      rw [hBytes] at hRefused
      rw [on_write]
      refine Iff.trans ?_ (and_congr_right fun _ => hRefused)
      cases m.writeBuffer addr b with
      | ok written => simp
      | error g => simp [and_comm, eq_comm]
  | fetch addr =>
      have hBytes : (Access.fetch addr).HasBytes := List.forall_mem_nil _
      rw [on_fetch, hLook, fetch_eq_error_iff]
      simp only [hBytes, not_true_eq_false, false_and, and_false, or_false]
      rfl

/-- What is refused has no such stretch, or else no such bytes. -/
theorem not_of_on_eq_error (h : a.work.on m = (.error f, next)) :
    ¬(a.InRange m.size ∧ a.HasBytes) := by
  rintro ⟨hRange, hBytes⟩
  rcases (on_eq_error_iff.1 h).2 with ⟨hOut, -⟩ | ⟨-, hNone, -⟩
  · exact hOut hRange
  · exact hNone hBytes

/-- An access succeeds if its stretch is there and its numbers are bytes. -/
theorem exists_on_eq_ok_iff :
    (∃ answer next, a.work.on m = (.ok answer, next)) ↔ a.InRange m.size ∧ a.HasBytes := by
  constructor
  · rintro ⟨answer, next, hOn⟩
    have hNot : ∀ g : Fault, ¬(¬a.InRange m.size ∧ g = .badAddress a.addr a.length ∨
        a.InRange m.size ∧ ¬a.HasBytes ∧ g = .notByte) := by
      intro g hg
      have hError := on_eq_error_iff.2 ⟨rfl, hg⟩
      rw [hOn] at hError
      cases hError
    have hRange : a.InRange m.size := by
      by_contra hRange
      exact hNot _ (.inl ⟨hRange, rfl⟩)
    refine ⟨hRange, ?_⟩
    by_contra hBytes
    exact hNot _ (.inr ⟨hRange, hBytes, rfl⟩)
  · intro hFine
    cases hOn : a.work.on m with
    | mk r next =>
        cases r with
        | ok answer => exact ⟨answer, next, rfl⟩
        | error g => exact absurd hFine (not_of_on_eq_error hOn)

/-! ### What an access stores -/

theorem Access.stored?_of_not {size : Nat} (h : ¬(a.InRange size ∧ a.HasBytes)) :
    a.stored? size x = none :=
  if_neg fun hAll => h ⟨hAll.1, hAll.2.1⟩

theorem Access.stored?_of_values {size : Nat} (h : a.values = []) : a.stored? size x = none := by
  rw [stored?, h, List.getElem?_nil, ite_self]

theorem Access.stored?_write {size : Nat} {addr : Int} {b : Buffer} {data : List UInt8}
    (hRange : (write addr b).InRange size) (hData : b.bytes? = some data) :
    (write addr b).stored? size x =
      if addr ≤ x then data[x - addr.toNat]?.map fun c => (c.toNat : Int) else none := by
  have hBytes : (write addr b).HasBytes := Buffer.exists_bytes?_iff.1 ⟨data, hData⟩
  rw [stored?, values, Buffer.bytes?_eq_some_iff.1 hData, List.getElem?_map]
  exact if_congr ⟨fun h => h.2.2, fun h => ⟨hRange, hBytes, h⟩⟩ rfl rfl

/-- In place of other bytes stand those of the buffer, and they are what the write stores. -/
theorem byteAt_replace_of_write {addr : Int} {b : Buffer} {data : List UInt8}
    (hRange : (Access.write addr b).InRange m.size) (hData : b.bytes? = some data) (x : Nat) :
    (((m.replace addr.toNat data).byteAt x).toNat : Int) =
      ((Access.write addr b).stored? m.size x).getD (m.byteAt x).toNat := by
  have hLength : b.values.length = data.length := by
    rw [Buffer.bytes?_eq_some_iff.1 hData, List.length_map]
  have hBounds : 0 ≤ addr ∧ addr + b.values.length ≤ m.size := hRange
  rw [Access.stored?_write hRange hData, byteAt_replace (by omega), List.getD_eq_getElem?_getD]
  by_cases hInside : addr.toNat ≤ x ∧ x < addr.toNat + data.length
  · rw [if_pos hInside, if_pos (by omega), List.getElem?_eq_getElem (by omega)]
    rfl
  · rw [if_neg hInside]
    split
    · rw [List.getElem?_eq_none (by omega)]
      rfl
    · rfl

/-- An access stores its bytes and nothing else. -/
theorem left_work (m : Memory) (a : Access) :
    (a.work.left m).size = m.size ∧
      ∀ x, (((a.work.left m).byteAt x).toNat : Int) =
        (a.stored? m.size x).getD (m.byteAt x).toNat := by
  cases a with
  | read addr n =>
      rw [Work.left_eq (on_read m addr n)]
      exact ⟨rfl, fun x => by rw [Access.stored?_of_values rfl]; rfl⟩
  | fetch addr =>
      rw [Work.left_eq (on_fetch m addr)]
      exact ⟨rfl, fun x => by rw [Access.stored?_of_values rfl]; rfl⟩
  | write addr b =>
      have hOn := on_write m addr b
      cases hWrite : m.writeBuffer addr b with
      | error g =>
          rw [hWrite] at hOn
          rw [Work.left_eq hOn]
          exact ⟨rfl, fun x => by rw [Access.stored?_of_not (not_of_on_eq_error hOn)]; rfl⟩
      | ok next =>
          rw [hWrite] at hOn
          obtain ⟨hRange, -⟩ := exists_on_eq_ok_iff.1 ⟨_, _, hOn⟩
          obtain ⟨⟨hLow, hHigh⟩, data, hData, rfl⟩ := writeBuffer_eq_ok_iff.1 hWrite
          rw [Buffer.bytes?_eq_some_iff.1 hData, List.length_map] at hHigh
          rw [Work.left_eq hOn]
          exact ⟨size_replace (by omega), byteAt_replace_of_write hRange hData⟩

/-! ## A course of accesses -/

theorem latest_cons (m : Memory) (a : Access) (accesses : List Access) (x : Nat) :
    m.latest (a :: accesses) x = (a.work.left m).latest accesses x := by
  obtain ⟨hSize, hByte⟩ := left_work m a
  rw [latest, latest, hSize, hByte, List.filterMap_cons]
  cases a.stored? m.size x with
  | none => rfl
  | some v => rw [List.getLast?_cons]; rfl

theorem size_afterAll (m : Memory) (accesses : List Access) :
    (m.afterAll accesses).size = m.size := by
  induction accesses generalizing m with
  | nil => rfl
  | cons a accesses ih => exact (ih (a.work.left m)).trans (left_work m a).1

/-- A byte is what was stored there last. -/
theorem byteAt_afterAll (m : Memory) (accesses : List Access) (x : Nat) :
    (((m.afterAll accesses).byteAt x).toNat : Int) = m.latest accesses x := by
  induction accesses generalizing m with
  | nil => rfl
  | cons a accesses ih => rw [latest_cons, ← ih (a.work.left m), afterAll, List.foldl_cons]; rfl

/-- The bytes of a word are those that are read one by one. -/
theorem fetch_eq_of_read {addr : Int} {w : Nat} (h : m.fetch addr = .ok w) :
    ∃ high low, m.read addr 1 = .ok [high] ∧ m.read (addr + 1) 1 = .ok [low] ∧
      w = 0x100 * high.toNat + low.toNat := by
  obtain ⟨⟨hLow, hHigh⟩, rfl⟩ := fetch_eq_ok_iff.1 h
  unfold opcodeSize at hHigh
  have hRead : ∀ {at' : Int}, m.Covers at' 1 → m.read at' 1 = .ok [m.byteAt at'.toNat] := by
    intro at' hCovers
    obtain ⟨data, hData⟩ : ∃ data, m.read at' 1 = .ok data :=
      ⟨_, read_eq_ok_iff.2 ⟨hCovers, rfl⟩⟩
    have hLength := length_of_read (by omega) hData
    have hByte := getD_of_read (by omega) hData (k := 0) (by omega)
    obtain ⟨b, rfl⟩ := List.length_eq_one_iff.1 (Int.ofNat_inj.1 hLength)
    rw [hData, ← Nat.add_zero at'.toNat, ← hByte]
    rfl
  have hNext : (addr + 1).toNat = addr.toNat + 1 := by omega
  refine ⟨_, _, hRead ⟨hLow, by omega⟩, hRead ⟨by omega, by omega⟩, ?_⟩
  rw [hNext]
  rfl

end Access

/-- After the accesses, memory is a map from addresses to the bytes that were stored last. -/
structure MapsBytes (m : Memory) (accesses : List Access) : Prop where
  size_eq : (m.afterAll accesses).size = m.size
  byteAt_eq (x : Nat) : (((m.afterAll accesses).byteAt x).toNat : Int) = m.latest accesses x
  succeeds_iff (a : Access) :
    (∃ answer next, a.work.on (m.afterAll accesses) = (.ok answer, next)) ↔
      a.InRange m.size ∧ a.HasBytes
  /-- The stretch is looked at before the numbers are. -/
  refused_iff (a : Access) (f : Fault) (next : Memory) :
    a.work.on (m.afterAll accesses) = (.error f, next) ↔ next = m.afterAll accesses ∧
      (¬a.InRange m.size ∧ f = .badAddress a.addr a.length ∨
        a.InRange m.size ∧ ¬a.HasBytes ∧ f = .notByte)
  write_eq (addr : Int) (b : Buffer) :
    (Access.write addr b).work.on (m.afterAll accesses) =
      match (m.afterAll accesses).writeBuffer addr b with
      | .ok next => (.ok .done, next)
      | .error f => (.error f, m.afterAll accesses)
  read_eq (addr : Int) (n : Nat) :
    (Access.read addr n).work.on (m.afterAll accesses) =
      (((m.afterAll accesses).read addr n).map .bytes, m.afterAll accesses)
  /-- What is read is at each address what was stored last. -/
  latest_of_read {addr : Int} {n : Nat} {data : List UInt8} :
    (m.afterAll accesses).read addr n = .ok data →
      data.length = n ∧ ∀ k < n, ((data.getD k 0).toNat : Int) = m.latest accesses (addr.toNat + k)
  fetch_eq (addr : Int) :
    (Access.fetch addr).work.on (m.afterAll accesses) =
      (((m.afterAll accesses).fetch addr).map .word, m.afterAll accesses)
  reads_of_fetch {addr : Int} {w : Nat} :
    (m.afterAll accesses).fetch addr = .ok w →
      ∃ high low, (m.afterAll accesses).read addr 1 = .ok [high] ∧
        (m.afterAll accesses).read (addr + 1) 1 = .ok [low] ∧
        w = 0x100 * high.toNat + low.toNat

/-- Memory is a map to the bytes that were stored last, whatever the accesses and however many of
them were refused. -/
theorem mapsBytes_afterAll (m : Memory) (accesses : List Access) : m.MapsBytes accesses where
  size_eq := size_afterAll m accesses
  byteAt_eq := byteAt_afterAll m accesses
  succeeds_iff a := by rw [← size_afterAll m accesses]; exact exists_on_eq_ok_iff
  refused_iff a f next := by rw [← size_afterAll m accesses]; exact on_eq_error_iff
  write_eq := on_write (m.afterAll accesses)
  read_eq := on_read (m.afterAll accesses)
  latest_of_read {addr n data} h := by
    have hLength : data.length = n := Int.ofNat_inj.1 (length_of_read (Int.natCast_nonneg n) h)
    refine ⟨hLength, fun k hk => ?_⟩
    rw [getD_of_read (Int.natCast_nonneg n) h (Int.ofNat_lt.2 hk), byteAt_afterAll]
  fetch_eq := on_fetch (m.afterAll accesses)
  reads_of_fetch := fetch_eq_of_read

/-- Of two writes that meet, the later one is found where they meet.  The third one stores nothing,
since one of its numbers is no byte. -/
example :
    let accesses : List Access :=
      [.write 1 (.bytes [1, 2, 3]), .write 2 (.numbers [7, 8]), .write 0 (.numbers [5, 256])]
    (List.range 5).map (Memory.latest ⟨#[9, 9, 9, 9, 9]⟩ accesses) = [9, 1, 7, 8, 9] := by decide

end Memory

end Chip8
