import Mathlib.Data.List.Nodup

/-! Messages in the protobuf wire format.

The code generated for a message reads it in a loop over tagged fields and writes its
fields in the order of their numbers. How single values are read and written is up to a
runtime; of that only the laws in `Runtime.Lawful` are used.
-/

set_option autoImplicit false

namespace Protobuf

abbrev Bytes := List (BitVec 8)

/-! ## The runtime -/

structure Format (α : Type) where
  read : Bytes → Option (α × Bytes)
  write : α → Bytes
  size : α → Nat

structure Format.Lawful {α : Type} (F : Format α) (ok : α → Prop) : Prop where
  read_write : ∀ {x : α} (rest : Bytes), ok x → F.read (F.write x ++ rest) = some (x, rest)
  shrinks : ∀ {bs : Bytes} {x : α} {rest : Bytes}, F.read bs = some (x, rest) → rest.length ≤ bs.length
  length_write : ∀ x, (F.write x).length = F.size x

structure Runtime where
  /-- a field of an `UnknownFieldSet` -/
  Unknown : Type
  tag : Format (BitVec 32)
  varint32 : Format (BitVec 32)
  varint64 : Format (BitVec 64)
  fixed64 : Format (BitVec 64)
  /-- the most bytes of a string or a message -/
  maxSize : Nat
  writeSize : Nat → Bytes
  /-- the bytes of a string or a message, behind their number -/
  readDelimited : Bytes → Option (Bytes × Bytes)
  lengthDelimitedSize : Nat → Nat
  unknownTag : Unknown → BitVec 32
  /-- an unknown field behind its tag -/
  unknown : BitVec 32 → Format Unknown

namespace Runtime

def Readable (R : Runtime) (u : R.Unknown) : Prop :=
  ∃ bs rest, (R.unknown (R.unknownTag u)).read bs = some (u, rest)

structure Lawful (R : Runtime) : Prop where
  tag : R.tag.Lawful fun _ => True
  varint32 : R.varint32.Lawful fun _ => True
  varint64 : R.varint64.Lawful fun _ => True
  fixed64 : R.fixed64.Lawful fun _ => True
  fixed64_size : ∀ x, R.fixed64.size x = 8
  unknown : ∀ tag, (R.unknown tag).Lawful fun u => R.unknownTag u = tag ∧ R.Readable u
  tag_shrinks : ∀ {bs tag rest}, R.tag.read bs = some (tag, rest) → rest.length < bs.length
  tag_size : ∀ tag : BitVec 32, tag.toNat < 128 → R.tag.size tag = 1
  read_delimited : ∀ {content : Bytes} (rest : Bytes), content.length ≤ R.maxSize →
    R.readDelimited (R.writeSize content.length ++ content ++ rest) = some (content, rest)
  delimited_shrinks : ∀ {bs content rest}, R.readDelimited bs = some (content, rest) → rest.length ≤ bs.length
  length_delimited : ∀ n, (R.writeSize n).length + n = R.lengthDelimitedSize n
  unknownTag_eq : ∀ {tag bs u rest}, (R.unknown tag).read bs = some (u, rest) → R.unknownTag u = tag

/-- `double`, as its 64 bits -/
def double (R : Runtime) : Format (BitVec 64) := { R.fixed64 with size := fun _ => 8 }

theorem Lawful.double {R : Runtime} (runtime : R.Lawful) : R.double.Lawful fun _ => True where
  read_write := runtime.fixed64.read_write
  shrinks := runtime.fixed64.shrinks
  length_write := fun x => (runtime.fixed64.length_write x).trans (runtime.fixed64_size x)

end Runtime

/-! ## Fields -/

/-- A field of a message: its case in the loop that reads, and its lines in the functions
that write, measure and merge. -/
structure Field (M : Type) where
  number : Nat
  tagByte : BitVec 8
  parse : M → Bytes → Option (M × Bytes)
  /-- what is written behind the tag, where the field is set -/
  payload : M → Option Bytes
  size : M → Nat
  /-- the field of the second message into the first one -/
  merge : M → M → M

namespace Field

variable {M : Type}

def tag (f : Field M) : BitVec 32 := f.tagByte.setWidth 32

/-- `switch (tag >> 3) { case number: if (static_cast<uint8_t>(tag) == tagByte)` -/
def accepts (f : Field M) (tag : BitVec 32) : Bool :=
  (tag >>> 3).toNat == f.number && tag.setWidth 8 == f.tagByte

structure Lawful (R : Runtime) (sound : M → Prop) (f : Field M) : Prop where
  number_eq : f.tagByte.toNat / 8 = f.number
  one_byte : f.tagByte.toNat < 128
  parse_payload : ∀ {p source} (m : M) (rest : Bytes), sound source → f.payload source = some p →
    p.length ≤ R.maxSize → f.parse m (p ++ rest) = some (f.merge m source, rest)
  merge_absent : ∀ {source} (m : M), f.payload source = none → f.merge m source = m
  size_eq : ∀ m, f.size m = ((f.payload m).map fun p => 1 + p.length).getD 0
  parse_shrinks : ∀ {m bs m' rest}, f.parse m bs = some (m', rest) → rest.length ≤ bs.length
  parse_sound : ∀ {m bs m' rest}, sound m → f.parse m bs = some (m', rest) → sound m'

variable {R : Runtime} {sound : M → Prop}

theorem Lawful.toNat_tag {f : Field M} (lawful : f.Lawful R sound) : f.tag.toNat = f.tagByte.toNat := by
  have small := lawful.one_byte
  rw [tag, BitVec.toNat_setWidth, Nat.mod_eq_of_lt (by omega)]

theorem Lawful.accepts_iff {f : Field M} (lawful : f.Lawful R sound) (tag : BitVec 32) :
    f.accepts tag = true ↔ tag = f.tag := by
  have number := lawful.number_eq
  have small := lawful.one_byte
  simp only [accepts, Bool.and_eq_true, beq_iff_eq, BitVec.toNat_ushiftRight, Nat.shiftRight_eq_div_pow,
    ← BitVec.toNat_inj, BitVec.toNat_setWidth, lawful.toNat_tag]
  constructor
  · rintro ⟨high, low⟩
    omega
  · intro same
    omega

end Field

/-! ## Messages -/

structure Schema (R : Runtime) (M : Type) where
  fields : List (Field M)
  unknown : M → List R.Unknown
  putUnknown : M → List R.Unknown → M

inductive Turn (M : Type) where
  | goes (m : M) (rest : Bytes)
  /-- `message_done` before the end, with the last tag -/
  | done (m : M) (tag : BitVec 32)

namespace Schema

variable {R : Runtime} {M : Type} (S : Schema R M)

def addUnknown (m : M) (us : List R.Unknown) : M := S.putUnknown m (S.unknown m ++ us)

def turn (m : M) (bs : Bytes) : Option (Turn M) :=
  match R.tag.read bs with
  | none => none
  | some (tag, rest) =>
    match S.fields.find? fun f => f.accepts tag with
    | some f => (f.parse m rest).map fun read => .goes read.1 read.2
    -- `handle_unusual`
    | none =>
      if tag = 0 ∨ tag &&& 7 = 4 then some (.done m tag)
      else ((R.unknown tag).read rest).map fun read => .goes (S.addUnknown m [read.1]) read.2

def loop : Nat → M → Bytes → Option (M × Option (BitVec 32))
  | 0, _, _ => none
  | fuel + 1, m, bs =>
    if bs = [] then some (m, none)
    else
      match S.turn m bs with
      | none => none
      | some (.goes m' rest) => loop fuel m' rest
      | some (.done m' tag) => some (m', some tag)

/-- The message read, and the tag that ended it early. -/
def internalParse (m : M) (bs : Bytes) : Option (M × Option (BitVec 32)) := S.loop (bs.length + 1) m bs

/-- Only all of the bytes are a message. -/
def mergeFromString (m : M) (bs : Bytes) : Option M :=
  match S.internalParse m bs with
  | some (m', none) => some m'
  | some (_, some _) | none => none

def writeField (m : M) (f : Field M) : Bytes :=
  ((f.payload m).map fun p => R.tag.write f.tag ++ p).getD []

def writeUnknown (u : R.Unknown) : Bytes :=
  R.tag.write (R.unknownTag u) ++ (R.unknown (R.unknownTag u)).write u

def internalSerialize (m : M) : Bytes :=
  S.fields.flatMap (writeField (R := R) m) ++ (S.unknown m).flatMap writeUnknown

def byteSizeLong (m : M) : Nat :=
  (S.unknown m).foldl (fun total u => total + (R.tag.size (R.unknownTag u) + (R.unknown (R.unknownTag u)).size u))
    (S.fields.foldl (fun total f => total + f.size m) 0)

def mergeFrom (m source : M) : M :=
  S.addUnknown (S.fields.foldl (fun m f => f.merge m source) m) (S.unknown source)

/-- An unknown field that the loop takes as such. -/
structure Foreign (u : R.Unknown) : Prop where
  readable : R.Readable u
  accepted : ∀ f ∈ S.fields, f.accepts (R.unknownTag u) = false
  goes : ¬ (R.unknownTag u = 0 ∨ R.unknownTag u &&& 7 = 4)

def Sound (m : M) : Prop := ∀ u ∈ S.unknown m, S.Foreign u

structure Lawful (sound : M → Prop) : Prop where
  distinct : (S.fields.map Field.tagByte).Nodup
  field : ∀ f ∈ S.fields, f.Lawful R sound
  foreign : ∀ {m}, sound m → S.Sound m
  add_sound : ∀ {m u}, sound m → S.Foreign u → sound (S.addUnknown m [u])
  put_unknown : ∀ m, S.putUnknown m (S.unknown m) = m
  unknown_put : ∀ m us, S.unknown (S.putUnknown m us) = us
  put_put : ∀ m us vs, S.putUnknown (S.putUnknown m us) vs = S.putUnknown m vs

theorem Sound.of_nil {S : Schema R M} {m : M} (none_ : S.unknown m = []) : S.Sound m := by
  intro u member
  rw [none_] at member
  cases member

theorem Sound.getD {S : Schema R M} {found : Option M} {empty : M} (clear : S.unknown empty = [])
    (sound : ∀ {m}, found = some m → S.Sound m) : S.Sound (found.getD empty) := by
  cases found with
  | none => exact .of_nil clear
  | some m => exact sound rfl

theorem Sound.add {S : Schema R M} {m : M} {u : R.Unknown} (unknown_put : ∀ m us, S.unknown (S.putUnknown m us) = us)
    (holds : S.Sound m) (foreign : S.Foreign u) : S.Sound (S.addUnknown m [u]) := by
  intro v member
  rw [addUnknown, unknown_put, List.mem_append, List.mem_singleton] at member
  rcases member with old | rfl
  · exact holds v old
  · exact foreign

/-- A message without messages in it needs only its own fields to be lawful. -/
theorem lawful_of_fields {S : Schema R M} (distinct : (S.fields.map Field.tagByte).Nodup)
    (field : ∀ f ∈ S.fields, f.Lawful R S.Sound) (put_unknown : ∀ m, S.putUnknown m (S.unknown m) = m)
    (unknown_put : ∀ m us, S.unknown (S.putUnknown m us) = us)
    (put_put : ∀ m us vs, S.putUnknown (S.putUnknown m us) vs = S.putUnknown m vs) : S.Lawful S.Sound where
  distinct := distinct
  field := field
  foreign := fun holds => holds
  add_sound := fun holds foreign => holds.add unknown_put foreign
  put_unknown := put_unknown
  unknown_put := unknown_put
  put_put := put_put

variable {S} {sound : M → Prop} {m m' : M} {bs rest : Bytes} {tag : BitVec 32} {f : Field M}

/-! ## The loop -/

inductive TurnOf (S : Schema R M) (m : M) (bs : Bytes) : Turn M → Prop where
  | field {tag : BitVec 32} {rest rest' : Bytes} {f : Field M} {m' : M} : R.tag.read bs = some (tag, rest) →
      f ∈ S.fields → f.parse m rest = some (m', rest') → TurnOf S m bs (.goes m' rest')
  | unknown {tag : BitVec 32} {rest rest' : Bytes} {u : R.Unknown} : R.tag.read bs = some (tag, rest) →
      (R.unknown tag).read rest = some (u, rest') → (∀ f ∈ S.fields, f.accepts tag = false) →
      ¬ (tag = 0 ∨ tag &&& 7 = 4) → TurnOf S m bs (.goes (S.addUnknown m [u]) rest')
  | done {tag : BitVec 32} : TurnOf S m bs (.done m tag)

theorem turnOf {turn : Turn M} (turned : S.turn m bs = some turn) : TurnOf S m bs turn := by
  unfold Schema.turn at turned
  split at turned
  · cases turned
  · next tag rest read =>
    split at turned
    · next f found =>
      obtain ⟨⟨m', rest'⟩, parsed, rfl⟩ := Option.map_eq_some_iff.mp turned
      exact .field read (List.mem_of_find?_eq_some found) parsed
    · next missing =>
      split at turned
      · cases turned
        exact .done
      · next goes =>
        obtain ⟨⟨u, rest'⟩, parsed, rfl⟩ := Option.map_eq_some_iff.mp turned
        exact .unknown read parsed (by simpa using missing) goes

namespace Lawful

variable (runtime : R.Lawful) (lawful : S.Lawful sound)

include runtime lawful

theorem turn_shrinks (turned : S.turn m bs = some (.goes m' rest)) : rest.length < bs.length := by
  cases turnOf turned with
  | field read member parsed =>
    exact Nat.lt_of_le_of_lt ((lawful.field _ member).parse_shrinks parsed) (runtime.tag_shrinks read)
  | unknown read parsed =>
    exact Nat.lt_of_le_of_lt ((runtime.unknown _).shrinks parsed) (runtime.tag_shrinks read)

theorem loop_congr {fuel fuel' : Nat} (enough : bs.length < fuel) (enough' : bs.length < fuel') :
    S.loop fuel m bs = S.loop fuel' m bs := by
  induction fuel generalizing fuel' m bs with
  | zero => cases enough
  | succ fuel ih =>
    cases fuel' with
    | zero => cases enough'
    | succ fuel' =>
      unfold loop
      split
      · rfl
      · split
        · rfl
        · next m' rest turned =>
          have less := turn_shrinks runtime lawful turned
          exact ih (by omega) (by omega)
        · rfl

theorem internalParse_goes (turned : S.turn m bs = some (.goes m' rest)) :
    S.internalParse m bs = S.internalParse m' rest := by
  have less := turn_shrinks runtime lawful turned
  have some_left : bs ≠ [] := by
    rintro rfl
    cases less
  unfold internalParse
  rw [loop, if_neg some_left, turned]
  exact loop_congr runtime lawful less (Nat.lt_succ_self _)

theorem sound_of_turn (started : sound m) (turned : S.turn m bs = some (.goes m' rest)) : sound m' := by
  cases turnOf turned with
  | field read member parsed => exact (lawful.field _ member).parse_sound started parsed
  | unknown read parsed other goes =>
    have same := runtime.unknownTag_eq parsed
    subst same
    exact lawful.add_sound started ⟨⟨_, _, parsed⟩, other, goes⟩

theorem sound_of_parse {fuel : Nat} {last : Option (BitVec 32)} (started : sound m)
    (parsed : S.loop fuel m bs = some (m', last)) : sound m' := by
  induction fuel generalizing m bs with
  | zero => cases parsed
  | succ fuel ih =>
    unfold loop at parsed
    split at parsed
    · cases parsed
      exact started
    · split at parsed
      · cases parsed
      · next turned => exact ih (sound_of_turn runtime lawful started turned) parsed
      · next turned =>
        cases turnOf turned
        cases parsed
        exact started

theorem sound_of_merged (started : sound m) (merged : S.mergeFromString m bs = some m') : sound m' := by
  unfold mergeFromString at merged
  split at merged
  · next parsed =>
    cases merged
    exact sound_of_parse runtime lawful started parsed
  · cases merged
  · cases merged

/-! ## What was written -/

omit runtime in
theorem find_tag (member : f ∈ S.fields) : (S.fields.find? fun g => g.accepts f.tag) = some f := by
  have same : ∀ g ∈ S.fields, g.accepts f.tag = true → g = f := by
    intro g other accepts
    have tags := (((lawful.field g other).accepts_iff _).mp accepts).symm
    have bytes : g.tagByte = f.tagByte := by
      apply BitVec.eq_of_toNat_eq
      rw [← (lawful.field g other).toNat_tag, ← (lawful.field f member).toNat_tag, tags]
    exact List.inj_on_of_nodup_map lawful.distinct other member bytes
  have own : f.accepts f.tag = true := ((lawful.field f member).accepts_iff _).mpr rfl
  cases found : S.fields.find? fun g => g.accepts f.tag with
  | none => exact absurd own (List.find?_eq_none.mp found f member)
  | some g =>
    have accepted := List.find?_some (p := fun g : Field M => g.accepts f.tag) found
    rw [same g (List.mem_of_find?_eq_some found) accepted]

theorem parse_field {source : M} (member : f ∈ S.fields) (holds : sound source)
    (small : (writeField (R := R) source f).length ≤ R.maxSize) :
    S.internalParse m (writeField (R := R) source f ++ rest) = S.internalParse (f.merge m source) rest := by
  have own := lawful.field f member
  unfold writeField at small ⊢
  cases payload : f.payload source with
  | none => simp [own.merge_absent m payload]
  | some p =>
    rw [payload] at small
    simp only [Option.map_some, Option.getD_some, List.length_append] at small ⊢
    refine internalParse_goes runtime lawful ?_
    rw [turn, List.append_assoc, runtime.tag.read_write _ trivial]
    simp only [find_tag lawful member, own.parse_payload m rest holds payload (by omega), Option.map_some]

theorem parse_unknown {u : R.Unknown} (foreign : S.Foreign u) :
    S.internalParse m (writeUnknown u ++ rest) = S.internalParse (S.addUnknown m [u]) rest := by
  refine internalParse_goes runtime lawful ?_
  have missing : (S.fields.find? fun f => f.accepts (R.unknownTag u)) = none := by
    rw [List.find?_eq_none]
    intro f member
    simp [foreign.accepted f member]
  rw [turn, writeUnknown, List.append_assoc, runtime.tag.read_write _ trivial]
  simp only [missing, if_neg foreign.goes, (runtime.unknown _).read_write rest ⟨rfl, foreign.readable⟩, Option.map_some]

theorem parse_fields {source : M} (holds : sound source) {fs : List (Field M)} (members : ∀ f ∈ fs, f ∈ S.fields)
    (small : (fs.flatMap (writeField (R := R) source)).length ≤ R.maxSize) :
    S.internalParse m (fs.flatMap (writeField (R := R) source) ++ rest) =
      S.internalParse (fs.foldl (fun m f => f.merge m source) m) rest := by
  induction fs generalizing m with
  | nil => rfl
  | cons f fs ih =>
    rw [List.flatMap_cons, List.length_append] at small
    rw [List.flatMap_cons, List.append_assoc,
      parse_field runtime lawful (members f (List.mem_cons_self ..)) holds (by omega)]
    exact ih (fun g member => members g (List.mem_cons_of_mem _ member)) (by omega)

theorem parse_unknowns {us : List R.Unknown} (foreign : ∀ u ∈ us, S.Foreign u) :
    S.internalParse m (us.flatMap writeUnknown ++ rest) = S.internalParse (S.addUnknown m us) rest := by
  induction us generalizing m with
  | nil =>
    rw [addUnknown, List.append_nil, lawful.put_unknown]
    rfl
  | cons u us ih =>
    have both : S.addUnknown (S.addUnknown m [u]) us = S.addUnknown m (u :: us) := by
      simp only [addUnknown, lawful.unknown_put, lawful.put_put, List.append_assoc, List.singleton_append]
    rw [List.flatMap_cons, List.append_assoc, parse_unknown runtime lawful (foreign u (List.mem_cons_self ..)),
      ih fun v member => foreign v (List.mem_cons_of_mem _ member), both]

theorem parse_serialized {source : M} (holds : sound source) (small : (S.internalSerialize source).length ≤ R.maxSize) :
    S.internalParse m (S.internalSerialize source ++ rest) = S.internalParse (S.mergeFrom m source) rest := by
  rw [internalSerialize, List.length_append] at small
  rw [internalSerialize, List.append_assoc, parse_fields runtime lawful holds (fun f member => member) (by omega),
    parse_unknowns runtime lawful (lawful.foreign holds)]
  rfl

/-- The encodings of messages one behind the other are read as all of them merged in that order. -/
theorem mergeFromString_serialized (m : M) (sources : List M) (holds : ∀ source ∈ sources, sound source)
    (small : ∀ source ∈ sources, (S.internalSerialize source).length ≤ R.maxSize) :
    S.mergeFromString m (sources.flatMap S.internalSerialize) = some (sources.foldl S.mergeFrom m) := by
  have parsed : S.internalParse m (sources.flatMap S.internalSerialize ++ []) =
      S.internalParse (sources.foldl S.mergeFrom m) [] := by
    induction sources generalizing m with
    | nil => rfl
    | cons source sources ih =>
      rw [List.flatMap_cons, List.append_assoc, parse_serialized runtime lawful (holds source (List.mem_cons_self ..))
        (small source (List.mem_cons_self ..))]
      exact ih _ (fun other member => holds other (List.mem_cons_of_mem _ member))
        fun other member => small other (List.mem_cons_of_mem _ member)
  rw [mergeFromString, ← List.append_nil (sources.flatMap _), parsed]
  rfl

/-- Bytes of any kind that are a message are one of the encodings of what is read of them. -/
theorem reads_again {empty : M} (merged : ∀ m, S.mergeFrom empty m = m) (blank : sound empty)
    (read : S.mergeFromString empty bs = some m) (small : (S.internalSerialize m).length ≤ R.maxSize) :
    S.mergeFromString empty (S.internalSerialize m) = some m := by
  have again := mergeFromString_serialized runtime lawful empty [m]
    (by simpa using sound_of_merged runtime lawful blank read) (by simpa using small)
  simpa [merged] using again

omit runtime lawful in
theorem length_written {α : Type} {write : α → Bytes} {size : α → Nat} {xs : List α}
    (each : ∀ x ∈ xs, (write x).length = size x) (total : Nat) :
    total + (xs.flatMap write).length = xs.foldl (fun total x => total + size x) total := by
  induction xs generalizing total with
  | nil => rfl
  | cons x xs ih =>
    rw [List.flatMap_cons, List.length_append, each x (List.mem_cons_self ..), ← Nat.add_assoc, List.foldl_cons]
    exact ih (fun y member => each y (List.mem_cons_of_mem _ member)) _

theorem length_serialized (m : M) : (S.internalSerialize m).length = S.byteSizeLong m := by
  have fields : ∀ f ∈ S.fields, (writeField (R := R) m f).length = f.size m := by
    intro f member
    have own := lawful.field f member
    have byte : (R.tag.write f.tag).length = 1 := by
      rw [runtime.tag.length_write, runtime.tag_size _ (own.toNat_tag ▸ own.one_byte)]
    rw [own.size_eq, writeField]
    cases f.payload m with
    | none => rfl
    | some p => simp [byte]
  have others : ∀ u : R.Unknown, (writeUnknown u).length =
      R.tag.size (R.unknownTag u) + (R.unknown (R.unknownTag u)).size u := by
    intro u
    rw [writeUnknown, List.length_append, runtime.tag.length_write, (runtime.unknown _).length_write]
  rw [internalSerialize, byteSizeLong, List.length_append, ← length_written (fun u _ => others u), ← length_written fields,
    Nat.zero_add]

end Lawful

end Schema

/-! ## Kinds of fields -/

section Kinds

variable {R : Runtime} {M : Type} {sound : M → Prop}

/-- `ByteSizeLong` counts a field that is set with its tag of one byte. -/
def sizePlusOne {α : Type} (get : M → Option α) (size : α → Nat) (m : M) : Nat := ((get m).map fun x => 1 + size x).getD 0

/-- What is set in the second message replaces what is set in the first one. -/
def mergeOption {α : Type} (get : M → Option α) (put : M → Option α → M) (m source : M) : M :=
  put m ((get source).or (get m))

def numberField {α : Type} (F : Format α) (number : Nat) (tagByte : BitVec 8) (get : M → Option α)
    (put : M → Option α → M) : Field M where
  number := number
  tagByte := tagByte
  parse := fun m bs => (F.read bs).map fun read => (put m (some read.1), read.2)
  payload := fun m => (get m).map F.write
  size := sizePlusOne get F.size
  merge := mergeOption get put

def stringField (R : Runtime) (number : Nat) (tagByte : BitVec 8) (get : M → Option Bytes)
    (put : M → Option Bytes → M) : Field M where
  number := number
  tagByte := tagByte
  parse := fun m bs => (R.readDelimited bs).map fun read => (put m (some read.1), read.2)
  payload := fun m => (get m).map fun s => R.writeSize s.length ++ s
  size := sizePlusOne get fun s => R.lengthDelimitedSize s.length
  merge := mergeOption get put

def messageField {N : Type} (S : Schema R N) (number : Nat) (tagByte : BitVec 8) (get : M → Option N) (mutable : M → N)
    (set : M → N → M) : Field M where
  number := number
  tagByte := tagByte
  parse := fun m bs =>
    match R.readDelimited bs with
    | none => none
    | some (content, rest) => (S.mergeFromString (mutable m) content).map fun n => (set m n, rest)
  payload := fun m => (get m).map fun n => R.writeSize (S.byteSizeLong n) ++ S.internalSerialize n
  size := sizePlusOne get fun n => R.lengthDelimitedSize (S.byteSizeLong n)
  merge := fun m source =>
    match get source with
    | none => m
    | some n => set m (S.mergeFrom (mutable m) n)

theorem mergeOption_none {α : Type} {get : M → Option α} {put : M → Option α → M}
    (put_get : ∀ m, put m (get m) = m) {source : M} (m : M) (absent : get source = none) :
    mergeOption get put m source = m := by
  rw [mergeOption, absent, Option.none_or, put_get]

theorem mergeOption_some {α : Type} {get : M → Option α} {put : M → Option α → M} {source : M} {x : α} (m : M)
    (found : get source = some x) : mergeOption get put m source = put m (some x) := by
  rw [mergeOption, found, Option.some_or]

theorem numberField_lawful {α : Type} {F : Format α} {number : Nat} {tagByte : BitVec 8} {get : M → Option α}
    {put : M → Option α → M} (format : F.Lawful fun _ => True) (number_eq : tagByte.toNat / 8 = number)
    (one_byte : tagByte.toNat < 128) (put_get : ∀ m, put m (get m) = m)
    (keeps : ∀ {m} x, sound m → sound (put m x)) : (numberField F number tagByte get put).Lawful R sound where
  number_eq := number_eq
  one_byte := one_byte
  parse_payload := by
    intro p source m rest _ payload _
    obtain ⟨x, found, rfl⟩ := Option.map_eq_some_iff.mp payload
    simp [numberField, format.read_write rest trivial, mergeOption_some m found]
  merge_absent := by
    intro source m payload
    exact mergeOption_none put_get m (Option.map_eq_none_iff.mp payload)
  size_eq := by
    intro m
    simp only [numberField, sizePlusOne, Option.map_map, Function.comp_def, format.length_write]
  parse_shrinks := by
    intro m bs m' rest parsed
    obtain ⟨⟨x, rest'⟩, read, same⟩ := Option.map_eq_some_iff.mp parsed
    cases same
    exact format.shrinks read
  parse_sound := by
    intro m bs m' rest holds parsed
    obtain ⟨⟨x, rest'⟩, read, same⟩ := Option.map_eq_some_iff.mp parsed
    cases same
    exact keeps _ holds

theorem stringField_lawful {number : Nat} {tagByte : BitVec 8} {get : M → Option Bytes} {put : M → Option Bytes → M}
    (runtime : R.Lawful) (number_eq : tagByte.toNat / 8 = number) (one_byte : tagByte.toNat < 128)
    (put_get : ∀ m, put m (get m) = m) (keeps : ∀ {m} x, sound m → sound (put m x)) :
    (stringField R number tagByte get put).Lawful R sound where
  number_eq := number_eq
  one_byte := one_byte
  parse_payload := by
    intro p source m rest _ payload small
    obtain ⟨s, found, rfl⟩ := Option.map_eq_some_iff.mp payload
    rw [List.length_append] at small
    simp only [stringField, runtime.read_delimited rest (Nat.le_trans (Nat.le_add_left ..) small), Option.map_some,
      mergeOption_some m found]
  merge_absent := by
    intro source m payload
    exact mergeOption_none put_get m (Option.map_eq_none_iff.mp payload)
  size_eq := by
    intro m
    simp only [stringField, sizePlusOne, Option.map_map, Function.comp_def, List.length_append, runtime.length_delimited]
  parse_shrinks := by
    intro m bs m' rest parsed
    obtain ⟨⟨x, rest'⟩, read, same⟩ := Option.map_eq_some_iff.mp parsed
    cases same
    exact runtime.delimited_shrinks read
  parse_sound := by
    intro m bs m' rest holds parsed
    obtain ⟨⟨x, rest'⟩, read, same⟩ := Option.map_eq_some_iff.mp parsed
    cases same
    exact keeps _ holds

theorem messageField_lawful {N : Type} {S : Schema R N} {within : N → Prop} {number : Nat} {tagByte : BitVec 8}
    {get : M → Option N} {mutable : M → N} {set : M → N → M} (runtime : R.Lawful) (inner : S.Lawful within)
    (number_eq : tagByte.toNat / 8 = number) (one_byte : tagByte.toNat < 128)
    (get_sound : ∀ {m n}, sound m → get m = some n → within n) (mutablesound : ∀ {m}, sound m → within (mutable m))
    (set_sound : ∀ {m n}, sound m → within n → sound (set m n)) :
    (messageField S number tagByte get mutable set).Lawful R sound where
  number_eq := number_eq
  one_byte := one_byte
  parse_payload := by
    intro p source m rest holds payload small
    obtain ⟨n, found, rfl⟩ := Option.map_eq_some_iff.mp payload
    have length := inner.length_serialized runtime n
    rw [List.length_append] at small
    have fits : (S.internalSerialize n).length ≤ R.maxSize := by omega
    have parsed := inner.mergeFromString_serialized runtime (mutable m) [n] (by simpa using get_sound holds found)
      (by simpa using fits)
    rw [List.flatMap_singleton] at parsed
    simp only [messageField, ← length, runtime.read_delimited rest fits, parsed, found, List.foldl_cons, List.foldl_nil,
      Option.map_some]
  merge_absent := by
    intro source m payload
    simp only [messageField, Option.map_eq_none_iff.mp payload]
  size_eq := by
    intro m
    simp only [messageField, sizePlusOne, Option.map_map, Function.comp_def, List.length_append,
      inner.length_serialized runtime, runtime.length_delimited]
  parse_shrinks := by
    intro m bs m' rest parsed
    simp only [messageField] at parsed
    split at parsed
    · cases parsed
    · next content rest' read =>
      obtain ⟨n, _, same⟩ := Option.map_eq_some_iff.mp parsed
      cases same
      exact runtime.delimited_shrinks read
  parse_sound := by
    intro m bs m' rest holds parsed
    simp only [messageField] at parsed
    split at parsed
    · cases parsed
    · next content rest' read =>
      obtain ⟨n, merged, same⟩ := Option.map_eq_some_iff.mp parsed
      cases same
      exact set_sound holds (inner.sound_of_merged runtime (mutablesound holds) merged)

end Kinds

end Protobuf
