import RdmaIht.LittleEndian
import RdmaIht.Tcp.Machine

/-! Messages on the byte stream of a socket.

A message is written as its 32 bytes and the null byte after them. A receive is one
call of `read`, which returns what has arrived, and what it does not return is left
for the next receive. Every message is received as it was sent exactly if each
`read` returns a whole message.
-/

set_option autoImplicit false

namespace RdmaIht.Tcp

open LittleEndian

abbrev Byte := BitVec 8

/-- `MESSAGE_SIZE` -/
def messageSize : Nat := 32

namespace Message

/-- The values are `uint64_t`. -/
structure Fits (msg : Message) : Prop where
  first : msg.first < 256 ^ 8
  second : msg.second < 256 ^ 8
  third : msg.third < 256 ^ 8
  fourth : msg.fourth < 256 ^ 8

/-- `content.data` -/
def content (msg : Message) : List Byte :=
  bytes 8 msg.first ++ (bytes 8 msg.second ++ (bytes 8 msg.third ++ bytes 8 msg.fourth))

/-- `content.data` and `padding` -/
def data (msg : Message) : List Byte := msg.content ++ [0]

/-- `content.ints` of a message with this `content.data`. -/
def ofData (buffer : List Byte) : Message where
  first := number (buffer.take 8)
  second := number ((buffer.drop 8).take 8)
  third := number ((buffer.drop 16).take 8)
  fourth := number ((buffer.drop 24).take 8)

end Message

/-! ## One socket -/

/-- `write(sockfd, send_buffer->content.data, MESSAGE_SIZE + 1)` -/
def sendServer (stream : List Byte) (msg : Message) : List Byte := stream ++ msg.data

/-- `read(sockfd, recv_buffer->content.data, MESSAGE_SIZE + 1)` into a message of zeros, when it returns `n` bytes. -/
def recvServer (stream : List Byte) (n : Nat) : Option (Message × List Byte) :=
  if 1 ≤ n ∧ n ≤ messageSize + 1 ∧ n ≤ stream.length then
    some (.ofData (stream.take n ++ List.replicate (messageSize + 1 - n) 0), stream.drop n)
  else none

/-- Receives whose reads return these numbers of bytes. -/
def recvs (stream : List Byte) : List Nat → Option (List Message)
  | [] => some []
  | n :: cuts => do
    let (msg, rest) ← recvServer stream n
    let msgs ← recvs rest cuts
    return msg :: msgs

/-! ## All sockets of the server -/

/-- `send_to_all` -/
def sendToAll (sockets : List (List Byte)) (msg : Message) : List (List Byte) :=
  sockets.map fun stream => sendServer stream msg

/-- `recv_from_all`, when the read on each socket returns these numbers of bytes. -/
def recvFromAll : List (List Byte) → List Nat → Option (List (Message × List Byte))
  | stream :: sockets, n :: cuts => do
    let received ← recvServer stream n
    let rest ← recvFromAll sockets cuts
    return received :: rest
  | [], _ => some []
  | _ :: _, [] => none

/-- Rounds of `recv_from_all`, each with the numbers of bytes that its reads return. -/
def recvRounds (sockets : List (List Byte)) : List (List Nat) → Option (List (List Message))
  | [] => some []
  | cuts :: rounds => do
    let received ← recvFromAll sockets cuts
    let rest ← recvRounds (received.map Prod.snd) rounds
    return received.map Prod.fst :: rest

def column {α : Type} (i : Nat) (rounds : List (List α)) : List α := rounds.filterMap (·[i]?)

theorem foldl_sendToAll (msgs : List Message) (sockets : List (List Byte)) :
    msgs.foldl sendToAll sockets = sockets.map fun stream => msgs.foldl sendServer stream := by
  induction msgs generalizing sockets with
  | nil => exact (List.map_id sockets).symm
  | cons msg msgs ih =>
    rw [List.foldl_cons, ih, sendToAll, List.map_map]
    rfl

theorem getElem?_recvFromAll {sockets : List (List Byte)} {cuts : List Nat} {received : List (Message × List Byte)}
    (all : recvFromAll sockets cuts = some received) {i : Nat} {stream : List Byte} (socket : sockets[i]? = some stream) :
    ∃ n msg rest, cuts[i]? = some n ∧ received[i]? = some (msg, rest) ∧ recvServer stream n = some (msg, rest) := by
  induction sockets generalizing cuts received i with
  | nil => cases socket
  | cons stream' sockets ih =>
    cases cuts with
    | nil => cases all
    | cons n cuts =>
      obtain ⟨⟨msg, rest⟩, here, others⟩ := Option.bind_eq_some_iff.mp all
      obtain ⟨later, tail, same⟩ := Option.bind_eq_some_iff.mp others
      cases same
      cases i with
      | zero =>
        cases socket
        exact ⟨n, msg, rest, rfl, rfl, here⟩
      | succ i => exact ih tail socket

/-- On each socket, rounds of `recv_from_all` are receives one after the other. -/
theorem column_recvRounds {rounds : List (List Nat)} {sockets : List (List Byte)} {received : List (List Message)}
    (ran : recvRounds sockets rounds = some received) {i : Nat} {stream : List Byte} (socket : sockets[i]? = some stream) :
    recvs stream (column i rounds) = some (column i received) := by
  induction rounds generalizing sockets received stream with
  | nil =>
    cases ran
    rfl
  | cons cuts rounds ih =>
    obtain ⟨round, first, others⟩ := Option.bind_eq_some_iff.mp ran
    obtain ⟨later, tail, same⟩ := Option.bind_eq_some_iff.mp others
    cases same
    obtain ⟨n, msg, rest, cut, slot, got⟩ := getElem?_recvFromAll first socket
    have socket' : (round.map Prod.snd)[i]? = some rest := by rw [List.getElem?_map, slot, Option.map_some]
    have split : column i (cuts :: rounds) = n :: column i rounds := List.filterMap_cons_some cut
    have split' : column i (round.map Prod.fst :: later) = msg :: column i later :=
      List.filterMap_cons_some (by rw [List.getElem?_map, slot]; rfl)
    rw [split, split']
    exact Option.bind_eq_some_iff.mpr ⟨_, got, Option.bind_eq_some_iff.mpr ⟨_, ih tail socket', rfl⟩⟩

/-! ## Whole messages -/

namespace Message

@[simp] theorem length_content (msg : Message) : msg.content.length = messageSize := by
  simp [content, messageSize]

@[simp] theorem length_data (msg : Message) : msg.data.length = messageSize + 1 := by
  simp [data]

theorem ofData_append (buffer rest : List Byte) (length : buffer.length = messageSize) :
    ofData (buffer ++ rest) = ofData buffer := by
  have long : ∀ k, k + 8 ≤ buffer.length → ((buffer ++ rest).drop k).take 8 = (buffer.drop k).take 8 := by
    intro k inside
    rw [List.drop_append_of_le_length (by omega), List.take_append_of_le_length (by rw [List.length_drop]; omega)]
  rw [messageSize] at length
  have first := long 0 (by omega)
  rw [List.drop_zero, List.drop_zero] at first
  simp only [ofData, first, long 8 (by omega), long 16 (by omega), long 24 (by omega)]

theorem ofData_content {msg : Message} (fits : msg.Fits) : ofData msg.content = msg := by
  cases msg
  simp only [ofData, content, mk.injEq]
  refine ⟨?_, ?_, ?_, ?_⟩
  · rw [List.take_left' (length_bytes 8 _), number_bytes fits.first]
  · rw [List.drop_left' (length_bytes 8 _), List.take_left' (length_bytes 8 _), number_bytes fits.second]
  · rw [← List.append_assoc, List.drop_left' (by simp), List.take_left' (length_bytes 8 _), number_bytes fits.third]
  · rw [← List.append_assoc, ← List.append_assoc, List.drop_left' (by simp),
      List.take_of_length_le (by simp), number_bytes fits.fourth]

theorem content_ofData {buffer : List Byte} (length : buffer.length = messageSize) : (ofData buffer).content = buffer := by
  rw [messageSize] at length
  have eight : ∀ l : List Byte, l.length = 8 → bytes 8 (number l) = l := by
    intro l len
    have same := bytes_number l
    rw [len] at same
    exact same
  simp only [content, ofData]
  rw [eight _ (by simp; omega), eight _ (by simp; omega), eight _ (by simp; omega), eight _ (by simp; omega)]
  rw [List.take_of_length_le (show (buffer.drop 24).length ≤ 8 by rw [List.length_drop]; omega)]
  have third : (buffer.drop 16).take 8 ++ buffer.drop 24 = buffer.drop 16 := by
    rw [show buffer.drop 24 = (buffer.drop 16).drop 8 by rw [List.drop_drop], List.take_append_drop]
  have second : (buffer.drop 8).take 8 ++ buffer.drop 16 = buffer.drop 8 := by
    rw [show buffer.drop 16 = (buffer.drop 8).drop 8 by rw [List.drop_drop], List.take_append_drop]
  rw [third, second, List.take_append_drop]

theorem content_ofData_take {buffer : List Byte} (long : messageSize ≤ buffer.length) :
    (ofData buffer).content = buffer.take messageSize := by
  have length : (buffer.take messageSize).length = messageSize := by rw [List.length_take, Nat.min_eq_left long]
  have cut := ofData_append (buffer.take messageSize) (buffer.drop messageSize) length
  rw [List.take_append_drop] at cut
  rw [cut, content_ofData length]

end Message

theorem recvServer_eq {stream : List Byte} {n : Nat} {msg : Message} {rest : List Byte}
    (received : recvServer stream n = some (msg, rest)) : 1 ≤ n ∧ n ≤ messageSize + 1 ∧ n ≤ stream.length ∧
      rest = stream.drop n ∧ msg = .ofData (stream.take n ++ List.replicate (messageSize + 1 - n) 0) := by
  unfold recvServer at received
  split at received
  · next inside =>
    cases received
    exact ⟨inside.1, inside.2.1, inside.2.2, rfl, rfl⟩
  · cases received

theorem content_recvServer {stream : List Byte} {n : Nat} {msg : Message} {rest : List Byte}
    (received : recvServer stream n = some (msg, rest)) :
    msg.content = (stream.take n ++ List.replicate (messageSize + 1 - n) 0).take messageSize := by
  obtain ⟨_, most, inside, _, rfl⟩ := recvServer_eq received
  refine Message.content_ofData_take ?_
  simp only [List.length_append, List.length_take, List.length_replicate]
  omega

theorem recvServer_data {msg : Message} (fits : msg.Fits) (stream : List Byte) {n : Nat} (whole : messageSize ≤ n)
    (most : n ≤ messageSize + 1) : recvServer (msg.data ++ stream) n = some (msg, (msg.data ++ stream).drop n) := by
  have inside : n ≤ (msg.data ++ stream).length := by simp; omega
  have positive : 1 ≤ n := Nat.le_trans (by decide) whole
  rw [recvServer, if_pos ⟨positive, most, inside⟩]
  have split : (msg.data ++ stream).take n = msg.content ++ ([0] ++ stream).take (n - messageSize) := by
    rw [Message.data, List.append_assoc, List.take_append, Message.length_content,
      List.take_of_length_le (by rw [Message.length_content]; exact whole)]
  rw [split, List.append_assoc, Message.ofData_append _ _ msg.length_content, Message.ofData_content fits]

/-! ## All fragmentations -/

/-- Every `read` but the last one returns a message with its null byte, and the last one at least its 32 bytes. -/
def Whole : List Nat → Prop
  | [] => True
  | [n] => messageSize ≤ n
  | n :: cut :: cuts => n = messageSize + 1 ∧ Whole (cut :: cuts)

instance decidableWhole : (cuts : List Nat) → Decidable (Whole cuts)
  | [] => isTrue trivial
  | [n] => inferInstanceAs (Decidable (messageSize ≤ n))
  | n :: cut :: cuts =>
    have := decidableWhole (cut :: cuts)
    inferInstanceAs (Decidable (n = messageSize + 1 ∧ _))

theorem foldl_sendServer (msgs : List Message) (stream : List Byte) :
    msgs.foldl sendServer stream = stream ++ msgs.flatMap Message.data := by
  induction msgs generalizing stream with
  | nil => simp
  | cons msg msgs ih => rw [List.foldl_cons, ih, sendServer, List.flatMap_cons, List.append_assoc]

theorem recvs_whole {cuts : List Nat} (whole : Whole cuts) {msgs received : List Message}
    (fits : ∀ msg ∈ msgs, msg.Fits) (ran : recvs (msgs.flatMap Message.data) cuts = some received) :
    received <+: msgs := by
  induction cuts generalizing msgs received with
  | nil =>
    cases ran
    exact List.nil_prefix
  | cons n cuts ih =>
    obtain ⟨⟨msg, rest⟩, first, others⟩ := Option.bind_eq_some_iff.mp ran
    obtain ⟨later, tail, same⟩ := Option.bind_eq_some_iff.mp others
    cases same
    obtain ⟨positive, most, inside, _⟩ := recvServer_eq first
    cases msgs with
    | nil =>
      simp only [List.flatMap_nil, List.length_nil] at inside
      omega
    | cons sent msgs =>
      rw [List.flatMap_cons] at first
      -- every cut but the last is one message, and the last is no shorter
      have enough : messageSize ≤ n := by
        cases cuts with
        | nil => exact whole
        | cons => exact Nat.le_trans (Nat.le_succ _) (Nat.le_of_eq whole.1.symm)
      rw [recvServer_data (fits sent List.mem_cons_self) _ enough most] at first
      cases first
      cases cuts with
      | nil =>
        cases tail
        exact List.cons_prefix_cons.mpr ⟨rfl, List.nil_prefix⟩
      | cons cut cuts =>
        obtain ⟨rfl, whole'⟩ := whole
        rw [List.drop_left' (Message.length_data _)] at tail
        exact List.cons_prefix_cons.mpr ⟨rfl, ih whole' (fun other member => fits other (List.mem_cons_of_mem _ member)) tail⟩

/-- A message without a zero in its content. -/
def fullMessage : Message := ⟨256 ^ 8 - 1, 256 ^ 8 - 1, 256 ^ 8 - 1, 256 ^ 8 - 1⟩

theorem content_fullMessage : fullMessage.content = List.replicate messageSize 255 := by decide

theorem fits_fullMessage : fullMessage.Fits := ⟨by decide, by decide, by decide, by decide⟩

theorem recvs_isSome {cuts : List Nat} (possible : ∀ n ∈ cuts, 1 ≤ n ∧ n ≤ messageSize + 1) (stream : List Byte)
    (enough : (messageSize + 1) * cuts.length ≤ stream.length) : ∃ received, recvs stream cuts = some received := by
  induction cuts generalizing stream with
  | nil => exact ⟨[], rfl⟩
  | cons n cuts ih =>
    obtain ⟨positive, most⟩ := possible n List.mem_cons_self
    rw [List.length_cons, Nat.mul_add, Nat.mul_one] at enough
    obtain ⟨later, tail⟩ := ih (fun m member => possible m (List.mem_cons_of_mem _ member)) (stream.drop n)
      (by rw [List.length_drop]; omega)
    have first : recvServer stream n =
        some (.ofData (stream.take n ++ List.replicate (messageSize + 1 - n) 0), stream.drop n) :=
      if_pos ⟨positive, most, by omega⟩
    exact ⟨_ :: later, Option.bind_eq_some_iff.mpr ⟨_, first, Option.bind_eq_some_iff.mpr ⟨_, tail, rfl⟩⟩⟩

/-- A receive returns the full message only if its read starts at a full message and returns its 32 bytes. -/
theorem getElem?_of_full {stream : List Byte} {n : Nat} {rest : List Byte}
    (received : recvServer stream n = some (fullMessage, rest)) : messageSize ≤ n ∧ stream[0]? = some 255 := by
  have content := content_recvServer received
  obtain ⟨positive, most, inside, _⟩ := recvServer_eq received
  rw [content_fullMessage] at content
  have byte : ∀ i < messageSize, (stream.take n ++ List.replicate (messageSize + 1 - n) 0)[i]? = some (255 : Byte) := by
    intro i bound
    have at_ := congrArg (fun l => l[i]?) content
    simp only [List.getElem?_replicate, bound, if_true, List.getElem?_take] at at_
    exact at_.symm
  constructor
  · by_contra short
    -- the byte after those returned is a zero of the buffer
    have zero := byte n (by omega)
    rw [List.getElem?_append_right (by rw [List.length_take]; omega), List.getElem?_replicate, List.length_take] at zero
    split at zero <;> cases zero
  · have first := byte 0 (by decide)
    rw [List.getElem?_append_left (by rw [List.length_take]; omega), List.getElem?_take, if_pos (show 0 < n from positive)] at first
    exact first

theorem whole_of_recvs {cuts : List Nat} {k : Nat} (enough : cuts.length ≤ k) {received : List Message}
    (ran : recvs ((List.replicate k fullMessage).flatMap Message.data) cuts = some received)
    (inOrder : received <+: List.replicate k fullMessage) : Whole cuts := by
  induction cuts generalizing k received with
  | nil => trivial
  | cons n cuts ih =>
    obtain ⟨k, rfl⟩ : ∃ j, k = j + 1 := ⟨k - 1, by rw [List.length_cons] at enough; omega⟩
    obtain ⟨⟨msg, rest⟩, first, others⟩ := Option.bind_eq_some_iff.mp ran
    obtain ⟨later, tail, same⟩ := Option.bind_eq_some_iff.mp others
    cases same
    rw [List.replicate_succ] at inOrder first
    obtain ⟨rfl, inOrder'⟩ := List.cons_prefix_cons.mp inOrder
    obtain ⟨_, most, _, rfl, _⟩ := recvServer_eq first
    obtain ⟨whole, _⟩ := getElem?_of_full first
    cases cuts with
    | nil => exact whole
    | cons cut cuts =>
      have all : n = messageSize + 1 := by
        by_contra left
        -- the null byte is left for the next receive
        obtain rfl : n = messageSize := by omega
        obtain ⟨⟨msg', rest'⟩, second, others'⟩ := Option.bind_eq_some_iff.mp tail
        obtain ⟨later', _, same'⟩ := Option.bind_eq_some_iff.mp others'
        cases same'
        obtain ⟨k, rfl⟩ : ∃ j, k = j + 1 := ⟨k - 1, by simp only [List.length_cons] at enough; omega⟩
        rw [List.replicate_succ] at inOrder'
        obtain ⟨rfl, _⟩ := List.cons_prefix_cons.mp inOrder'
        obtain ⟨_, start⟩ := getElem?_of_full second
        rw [List.flatMap_cons, Message.data, List.append_assoc, List.drop_left' fullMessage.length_content] at start
        cases start
      refine ⟨all, ih (k := k) (by simpa using enough) ?_ inOrder'⟩
      rw [all, List.flatMap_cons, List.drop_left' (Message.length_data _)] at tail
      exact tail

theorem recvFromAll_isSome {sockets : List (List Byte)} {cuts : List Nat} (matching : cuts.length = sockets.length)
    (possible : ∀ n ∈ cuts, 1 ≤ n ∧ n ≤ messageSize + 1) {left : Nat}
    (enough : ∀ stream ∈ sockets, messageSize + 1 + left ≤ stream.length) : ∃ received,
      recvFromAll sockets cuts = some received ∧ received.length = sockets.length ∧
        ∀ stream ∈ received.map Prod.snd, left ≤ stream.length := by
  induction sockets generalizing cuts with
  | nil => exact ⟨[], rfl, rfl, by simp⟩
  | cons stream sockets ih =>
    cases cuts with
    | nil => cases matching
    | cons n cuts =>
      obtain ⟨⟨positive, most⟩, possible⟩ := List.forall_mem_cons.mp possible
      obtain ⟨long, enough⟩ := List.forall_mem_cons.mp enough
      obtain ⟨received, tail, length, rest⟩ := ih (Nat.succ.inj matching) possible enough
      have first : recvServer stream n =
          some (.ofData (stream.take n ++ List.replicate (messageSize + 1 - n) 0), stream.drop n) :=
        if_pos ⟨positive, most, by omega⟩
      refine ⟨_ :: received, Option.bind_eq_some_iff.mpr ⟨_, first, Option.bind_eq_some_iff.mpr ⟨_, tail, rfl⟩⟩, ?_, ?_⟩
      · rw [List.length_cons, length, List.length_cons]
      · refine List.forall_mem_cons.mpr ⟨?_, rest⟩
        rw [List.length_drop]
        omega

theorem recvRounds_isSome {rounds : List (List Nat)} {sockets : List (List Byte)}
    (matching : ∀ cuts ∈ rounds, cuts.length = sockets.length)
    (possible : ∀ cuts ∈ rounds, ∀ n ∈ cuts, 1 ≤ n ∧ n ≤ messageSize + 1)
    (enough : ∀ stream ∈ sockets, (messageSize + 1) * rounds.length ≤ stream.length) :
    ∃ received, recvRounds sockets rounds = some received := by
  induction rounds generalizing sockets with
  | nil => exact ⟨[], rfl⟩
  | cons cuts rounds ih =>
    obtain ⟨here, matching⟩ := List.forall_mem_cons.mp matching
    obtain ⟨mine, possible⟩ := List.forall_mem_cons.mp possible
    have long : ∀ stream ∈ sockets, messageSize + 1 + (messageSize + 1) * rounds.length ≤ stream.length := by
      intro stream member
      have all := enough stream member
      rw [List.length_cons, Nat.mul_add, Nat.mul_one] at all
      omega
    obtain ⟨received, first, length, rest⟩ := recvFromAll_isSome here mine long
    have matching' : ∀ cuts ∈ rounds, cuts.length = (received.map Prod.snd).length := by
      rw [List.length_map, length]
      exact matching
    obtain ⟨later, tail⟩ := ih matching' possible rest
    exact ⟨_ :: later, Option.bind_eq_some_iff.mpr ⟨_, first, Option.bind_eq_some_iff.mpr ⟨_, tail, rfl⟩⟩⟩

/-- Every sequence of messages is received as it was sent exactly if each `read` returns a whole message. -/
theorem recvs_exact {cuts : List Nat} (possible : ∀ n ∈ cuts, 1 ≤ n ∧ n ≤ messageSize + 1) :
    (∀ msgs received, (∀ msg ∈ msgs, msg.Fits) → recvs (msgs.foldl sendServer []) cuts = some received →
      received <+: msgs) ↔ Whole cuts := by
  constructor
  · intro exact_
    have long : (messageSize + 1) * cuts.length ≤
        ((List.replicate cuts.length fullMessage).foldl sendServer []).length := by
      rw [foldl_sendServer]
      simp [List.length_flatMap, Nat.mul_comm]
    obtain ⟨received, ran⟩ := recvs_isSome possible _ long
    have inOrder := exact_ _ received (fun msg member => List.eq_of_mem_replicate member ▸ fits_fullMessage) ran
    rw [foldl_sendServer, List.nil_append] at ran
    exact whole_of_recvs (Nat.le_refl _) ran inOrder
  · intro whole msgs received fits ran
    rw [foldl_sendServer, List.nil_append] at ran
    exact recvs_whole whole fits ran

theorem column_sent {sent : List (List Message)} {rounds : List (List Nat)} {received : List (List Message)}
    (ran : recvRounds (sent.map fun msgs => msgs.foldl sendServer []) rounds = some received) {i : Nat}
    {msgs : List Message} (socket : sent[i]? = some msgs) :
    recvs (msgs.flatMap Message.data) (column i rounds) = some (column i received) := by
  refine column_recvRounds ran ?_
  rw [List.getElem?_map, socket, Option.map_some, foldl_sendServer, List.nil_append]

/-- The same for rounds of `recv_from_all` on sockets that clients have sent to. -/
theorem recvRounds_exact {count : Nat} {rounds : List (List Nat)} (matching : ∀ cuts ∈ rounds, cuts.length = count)
    (possible : ∀ cuts ∈ rounds, ∀ n ∈ cuts, 1 ≤ n ∧ n ≤ messageSize + 1) :
    (∀ (sent : List (List Message)) received, sent.length = count → (∀ msgs ∈ sent, ∀ msg ∈ msgs, msg.Fits) →
      recvRounds (sent.map fun msgs => msgs.foldl sendServer []) rounds = some received →
      ∀ i msgs, sent[i]? = some msgs → column i received <+: msgs) ↔ ∀ i < count, Whole (column i rounds) := by
  constructor
  · intro exact_ i inside
    have socket : (List.replicate count (List.replicate rounds.length fullMessage))[i]? =
        some (List.replicate rounds.length fullMessage) := List.getElem?_replicate_of_lt inside
    have long : ∀ stream ∈ (List.replicate count (List.replicate rounds.length fullMessage)).map
        fun msgs => msgs.foldl sendServer [], (messageSize + 1) * rounds.length ≤ stream.length := by
      intro stream member
      obtain ⟨msgs, inSent, rfl⟩ := List.mem_map.mp member
      rw [List.eq_of_mem_replicate inSent, foldl_sendServer]
      simp [List.length_flatMap, Nat.mul_comm]
    obtain ⟨received, ran⟩ := recvRounds_isSome (by simpa using matching) possible long
    have inOrder := exact_ _ received List.length_replicate (by
      intro msgs inSent msg member
      rw [List.eq_of_mem_replicate inSent] at member
      rw [List.eq_of_mem_replicate member]
      exact fits_fullMessage) ran i _ socket
    exact whole_of_recvs (List.length_filterMap_le _ _) (column_sent ran socket) inOrder
  · intro whole sent received length fits ran i msgs socket
    obtain ⟨bound, same⟩ := List.getElem?_eq_some_iff.mp socket
    exact recvs_whole (whole i (length ▸ bound)) (fits msgs (same ▸ List.getElem_mem bound)) (column_sent ran socket)

/-- For these cuts of the stream every sequence of messages is received as it was sent
exactly if each `read` returns a whole message, whether `send_server` or `send_to_all` has
sent them, and `recv_from_all` receives all sequences exactly if this holds on each socket. -/
theorem recvs_exact_iff {cuts : List Nat} (possible : ∀ n ∈ cuts, 1 ≤ n ∧ n ≤ messageSize + 1) :
    ((∀ msgs received, (∀ msg ∈ msgs, msg.Fits) → recvs (msgs.foldl sendServer []) cuts = some received →
      received <+: msgs) ↔ Whole cuts) ∧
    (∀ count i, i < count → ((∀ msgs received, (∀ msg ∈ msgs, msg.Fits) →
      (∃ stream, (msgs.foldl sendToAll (List.replicate count []))[i]? = some stream ∧ recvs stream cuts = some received) →
      received <+: msgs) ↔ Whole cuts)) ∧
    ∀ count (rounds : List (List Nat)), (∀ cuts ∈ rounds, cuts.length = count) →
      (∀ cuts ∈ rounds, ∀ n ∈ cuts, 1 ≤ n ∧ n ≤ messageSize + 1) →
      ((∀ (sent : List (List Message)) received, sent.length = count → (∀ msgs ∈ sent, ∀ msg ∈ msgs, msg.Fits) →
        recvRounds (sent.map fun msgs => msgs.foldl sendServer []) rounds = some received →
        ∀ i msgs, sent[i]? = some msgs → column i received <+: msgs) ↔ ∀ i < count, Whole (column i rounds)) := by
  refine ⟨recvs_exact possible, fun count i inside => ?_, fun count rounds matching possible => ?_⟩
  · rw [← recvs_exact possible]
    refine forall_congr' fun msgs => forall_congr' fun received => forall_congr' fun _ => ?_
    rw [foldl_sendToAll, List.getElem?_map, List.getElem?_replicate_of_lt inside]
    simp
  · exact recvRounds_exact matching possible

/-- Three pointers arrive, the last without the null byte. -/
theorem recvs_exact_iff_lastShort : ∃ received,
    recvs ([{ first := 0x7fbe86c10800 }, { first := 1 }, { first := 2 }].foldl sendServer []) [33, 33, 32] = some received ∧
      received <+: [{ first := 0x7fbe86c10800 }, { first := 1 }, { first := 2 }] := by
  have ran : (recvs ([{ first := 0x7fbe86c10800 }, { first := 1 }, { first := 2 }].foldl sendServer []) [33, 33, 32]).isSome =
      true := by decide +kernel
  obtain ⟨received, done⟩ := Option.isSome_iff_exists.mp ran
  refine ⟨received, done, (recvs_exact_iff (by decide)).1.mpr (by decide) _ _ ?_ done⟩
  intro msg member
  simp only [List.mem_cons, List.not_mem_nil, or_false] at member
  rcases member with rfl | rfl | rfl <;> exact ⟨by decide, by decide, by decide, by decide⟩

/-- The first `read` returns three bytes of the root pointer. -/
theorem not_recvs_exact_shortRead : ¬ ∀ cuts msgs received, (∀ n ∈ cuts, 1 ≤ n ∧ n ≤ messageSize + 1) →
    (∀ msg ∈ msgs, msg.Fits) → recvs (msgs.foldl sendServer []) cuts = some received → received <+: msgs := by
  intro claimed
  have ran : recvs ([{ first := 0x7fbe86c10800 }].foldl sendServer []) [3, 30] =
      some [{ first := 0xc10800 }, { first := 0x7fbe86 }] := by decide +kernel
  have inOrder := claimed [3, 30] [{ first := 0x7fbe86c10800 }] _ (by decide)
    (fun msg member => List.mem_singleton.mp member ▸ ⟨by decide, by decide, by decide, by decide⟩) ran
  exact absurd inOrder (by decide)

end RdmaIht.Tcp
