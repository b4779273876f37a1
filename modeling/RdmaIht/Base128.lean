import RdmaIht.Protobuf
import RdmaIht.LittleEndian

/-! The base-128 encoding: a runtime for messages in the protobuf wire format.

Numbers are written seven bits at a time, the lowest first, and all bytes but the last
have their high bit set. Groups are not read.
-/

set_option autoImplicit false

namespace Protobuf

/-! ## Numbers -/

def writeVarint : Nat → Nat → Bytes
  | 0, _ => []
  | n + 1, x => if x < 128 then [.ofNat 8 x] else .ofNat 8 (x % 128 + 128) :: writeVarint n (x / 128)

def readVarint : Nat → Bytes → Option (Nat × Bytes)
  | 0, _ | _ + 1, [] => none
  | n + 1, b :: bs =>
    if b.toNat < 128 then some (b.toNat, bs)
    else (readVarint n bs).map fun read => (b.toNat - 128 + 128 * read.1, read.2)

theorem readVarint_write {n x : Nat} (small : x < 128 ^ (n + 1)) (rest : Bytes) :
    readVarint (n + 1) (writeVarint (n + 1) x ++ rest) = some (x, rest) := by
  induction n generalizing x with
  | zero =>
    have least : x < 128 := small
    have byte : (BitVec.ofNat 8 x).toNat = x := by
      rw [BitVec.toNat_ofNat]
      omega
    simp only [writeVarint, if_pos least, List.singleton_append, readVarint, byte]
  | succ n ih =>
    rw [writeVarint]
    by_cases least : x < 128
    · have byte : (BitVec.ofNat 8 x).toNat = x := by
        rw [BitVec.toNat_ofNat]
        omega
      simp only [if_pos least, List.singleton_append, readVarint, byte]
    · have byte : (BitVec.ofNat 8 (x % 128 + 128)).toNat = x % 128 + 128 := by
        rw [BitVec.toNat_ofNat]
        omega
      have high : x / 128 < 128 ^ (n + 1) := Nat.div_lt_of_lt_mul (by rwa [Nat.pow_succ, Nat.mul_comm] at small)
      have more : ¬ x % 128 + 128 < 128 := by omega
      have value : x % 128 + 128 - 128 + 128 * (x / 128) = x := by omega
      rw [if_neg least, List.cons_append, readVarint, byte, if_neg more, ih high, Option.map_some, value]

theorem readVarint_shrinks {n x : Nat} {bs rest : Bytes} (read : readVarint n bs = some (x, rest)) :
    rest.length < bs.length := by
  induction n generalizing bs x rest with
  | zero => simp [readVarint] at read
  | succ n ih =>
    cases bs with
    | nil => simp [readVarint] at read
    | cons b bs =>
      rw [readVarint] at read
      split at read
      · cases read
        exact Nat.lt_succ_self _
      · obtain ⟨⟨x', rest'⟩, inner, same⟩ := Option.map_eq_some_iff.mp read
        cases same
        exact Nat.lt_succ_of_lt (ih inner)

def varint (w n : Nat) : Format (BitVec w) where
  read := fun bs => (readVarint n bs).map fun read => (.ofNat w read.1, read.2)
  write := fun x => writeVarint n x.toNat
  size := fun x => (writeVarint n x.toNat).length

def fixed (w n : Nat) : Format (BitVec w) where
  read := fun bs => if n ≤ bs.length then some (.ofNat w (LittleEndian.number (bs.take n)), bs.drop n) else none
  write := fun x => LittleEndian.bytes n x.toNat
  size := fun _ => n

theorem varint_lawful {w n : Nat} (fits : 2 ^ w ≤ 128 ^ (n + 1)) : (varint w (n + 1)).Lawful fun _ => True where
  read_write := by
    intro x rest _
    simp [varint, readVarint_write (Nat.lt_of_lt_of_le x.isLt fits) rest]
  shrinks := by
    intro bs x rest read
    obtain ⟨⟨x', rest'⟩, inner, same⟩ := Option.map_eq_some_iff.mp read
    cases same
    exact Nat.le_of_lt (readVarint_shrinks inner)
  length_write := fun _ => rfl

theorem fixed_lawful {w n : Nat} (fits : 2 ^ w ≤ 256 ^ n) : (fixed w n).Lawful fun _ => True where
  read_write := by
    intro x rest _
    have there : n ≤ (LittleEndian.bytes n x.toNat ++ rest).length := by
      rw [List.length_append, LittleEndian.length_bytes]
      exact Nat.le_add_right ..
    simp only [fixed, if_pos there]
    rw [List.take_left' (LittleEndian.length_bytes ..), List.drop_left' (LittleEndian.length_bytes ..),
      LittleEndian.number_bytes (Nat.lt_of_lt_of_le x.isLt fits), BitVec.ofNat_toNat, BitVec.setWidth_eq]
  shrinks := by
    intro bs x rest read
    simp only [fixed] at read
    split at read
    · cases read
      rw [List.length_drop]
      exact Nat.sub_le ..
    · cases read
  length_write := fun x => LittleEndian.length_bytes ..

/-! ## Contents -/

def maxSize : Nat := 2 ^ 31 - 1

def readDelimited (bs : Bytes) : Option (Bytes × Bytes) :=
  match readVarint 5 bs with
  | none => none
  | some (n, rest) => if n ≤ maxSize ∧ n ≤ rest.length then some (rest.take n, rest.drop n) else none

theorem readDelimited_write {content : Bytes} (rest : Bytes) (small : content.length ≤ maxSize) :
    readDelimited (writeVarint 5 content.length ++ content ++ rest) = some (content, rest) := by
  have bound : content.length < 128 ^ 5 := Nat.lt_of_le_of_lt small (by decide)
  rw [readDelimited, List.append_assoc, readVarint_write bound]
  simp [small]

theorem readDelimited_some {bs content rest : Bytes} (read : readDelimited bs = some (content, rest)) :
    content.length ≤ maxSize ∧ rest.length ≤ bs.length := by
  unfold readDelimited at read
  split at read
  · cases read
  · next n behind inner =>
    split at read
    · next fits =>
      cases read
      have shrinks := readVarint_shrinks inner
      rw [List.length_take, List.length_drop]
      omega
    · cases read

/-! ## Unknown fields -/

inductive Payload where
  | varint (x : BitVec 64)
  | fixed64 (x : BitVec 64)
  | delimited (content : Bytes)
  | fixed32 (x : BitVec 32)

namespace Payload

def read (tag : BitVec 32) (bs : Bytes) : Option (Payload × Bytes) :=
  match (tag &&& 7).toNat with
  | 0 => ((Protobuf.varint 64 10).read bs).map fun read => (.varint read.1, read.2)
  | 1 => ((fixed 64 8).read bs).map fun read => (.fixed64 read.1, read.2)
  | 2 => (readDelimited bs).map fun read => (.delimited read.1, read.2)
  | 5 => ((fixed 32 4).read bs).map fun read => (.fixed32 read.1, read.2)
  | _ => none

def write : Payload → Bytes
  | .varint x => (Protobuf.varint 64 10).write x
  | .fixed64 x => (fixed 64 8).write x
  | .delimited content => writeVarint 5 content.length ++ content
  | .fixed32 x => (fixed 32 4).write x

theorem read_write {tag : BitVec 32} {bs bs' rest : Bytes} {payload : Payload} (was : read tag bs = some (payload, bs')) :
    read tag (payload.write ++ rest) = some (payload, rest) := by
  unfold read at was ⊢
  split at was
  · obtain ⟨_, _, same⟩ := Option.map_eq_some_iff.mp was
    cases same
    simp only [write, (varint_lawful (w := 64) (n := 9) (by decide)).read_write rest trivial, Option.map_some]
  · obtain ⟨_, _, same⟩ := Option.map_eq_some_iff.mp was
    cases same
    simp only [write, (fixed_lawful (w := 64) (n := 8) (by decide)).read_write rest trivial, Option.map_some]
  · obtain ⟨_, read, same⟩ := Option.map_eq_some_iff.mp was
    cases same
    simp only [write, readDelimited_write rest (readDelimited_some read).1, Option.map_some]
  · obtain ⟨_, _, same⟩ := Option.map_eq_some_iff.mp was
    cases same
    simp only [write, (fixed_lawful (w := 32) (n := 4) (by decide)).read_write rest trivial, Option.map_some]
  · cases was

theorem read_shrinks {tag : BitVec 32} {bs rest : Bytes} {payload : Payload} (was : read tag bs = some (payload, rest)) :
    rest.length ≤ bs.length := by
  unfold read at was
  split at was
  · obtain ⟨_, read, same⟩ := Option.map_eq_some_iff.mp was
    cases same
    exact (varint_lawful (w := 64) (n := 9) (by decide)).shrinks read
  · obtain ⟨_, read, same⟩ := Option.map_eq_some_iff.mp was
    cases same
    exact (fixed_lawful (w := 64) (n := 8) (by decide)).shrinks read
  · obtain ⟨_, read, same⟩ := Option.map_eq_some_iff.mp was
    cases same
    exact (readDelimited_some read).2
  · obtain ⟨_, read, same⟩ := Option.map_eq_some_iff.mp was
    cases same
    exact (fixed_lawful (w := 32) (n := 4) (by decide)).shrinks read
  · cases was

end Payload

/-! ## The runtime -/

def base128 : Runtime where
  Unknown := BitVec 32 × Payload
  tag := varint 32 5
  varint32 := varint 32 10
  varint64 := varint 64 10
  fixed64 := fixed 64 8
  maxSize := maxSize
  writeSize := writeVarint 5
  readDelimited := readDelimited
  lengthDelimitedSize := fun n => (writeVarint 5 n).length + n
  unknownTag := fun u => u.1
  unknown := fun tag => ⟨fun bs => (Payload.read tag bs).map fun read => ((tag, read.1), read.2), fun u => u.2.write,
    fun u => u.2.write.length⟩

theorem base128_lawful : base128.Lawful where
  tag := varint_lawful (by decide)
  varint32 := varint_lawful (by decide)
  varint64 := varint_lawful (by decide)
  fixed64 := fixed_lawful (by decide)
  fixed64_size := fun _ => rfl
  unknown := by
    intro tag
    refine ⟨?_, ?_, fun _ => rfl⟩
    · rintro ⟨_, payload⟩ rest ⟨rfl, _, _, was⟩
      obtain ⟨_, read, same⟩ := Option.map_eq_some_iff.mp was
      cases same
      exact Option.map_eq_some_iff.mpr ⟨_, Payload.read_write read, rfl⟩
    · intro bs u rest was
      obtain ⟨_, read, same⟩ := Option.map_eq_some_iff.mp was
      cases same
      exact Payload.read_shrinks read
  tag_shrinks := by
    intro bs tag rest was
    obtain ⟨_, read, same⟩ := Option.map_eq_some_iff.mp was
    cases same
    exact readVarint_shrinks read
  tag_size := by
    intro tag small
    simp [base128, varint, writeVarint, small]
  read_delimited := fun rest small => readDelimited_write rest small
  delimited_shrinks := fun read => (readDelimited_some read).2
  length_delimited := fun _ => rfl
  unknownTag_eq := by
    intro tag bs u rest was
    obtain ⟨_, _, same⟩ := Option.map_eq_some_iff.mp was
    cases same
    rfl

end Protobuf
