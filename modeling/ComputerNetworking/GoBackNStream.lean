import ComputerNetworking.GoBackNModel
import ComputerNetworking.LittleEndian
import Mathlib.Data.List.GetD

/-! What the Go-Back-N receiver reads from its socket (`main` of `GoBackNReceiver.c`).

The socket is a stream. In each round the receiver looks at a header, takes the size of the message from it
and receives that many bytes; either call may return less than it is asked for. -/

namespace ComputerNetworking.GoBackN

open LittleEndian

/-- How many bytes the two calls of `recv` in a round return at most. -/
structure Cut where
  peek : Nat
  read : Nat
  peek_pos : 0 < peek
  read_pos : 0 < read

/-- The memory of `allocateGoBackNMessageStruct(DEFAULT_PAYLOAD_SIZE)`. -/
def messageMemory : Bytes := List.replicate (headerSize + defaultPayloadSize) 0

/-- The memory when bytes are received to its front. -/
def receiveInto (mem data : Bytes) : Option Bytes :=
  if data.length ≤ mem.length then some (data ++ mem.drop data.length) else none

/-- The message in the memory, when its size is set to what has been received. -/
def messageOf (mem : Bytes) (bytesRead : Nat) : GoBackNMessageStruct where
  size := bytesRead
  srcNode := toInt32 (word mem 1)
  srcAppl := toInt32 (word mem 2)
  destNode := toInt32 (word mem 3)
  destAppl := toInt32 (word mem 4)
  seqNo := toInt32 (word mem 5)
  seqNoExpected := toInt32 (word mem 6)
  hasErrors := decide (mem.getD 28 0 ≠ 0)
  data := (mem.drop headerSize).take (bytesRead - headerSize)

/-- The two calls of `recv` in a round: the message and the rest of the stream. The size of the message is
the first field of what is seen. -/
def receiveRound (cut : Cut) (stream : Bytes) : Option (GoBackNMessageStruct × Bytes) :=
  match receiveInto messageMemory (stream.take (min cut.peek headerSize)) with
  | none => none
  | some mem =>
      let data := stream.take (min cut.read (word mem 0))
      match receiveInto mem data with
      | none => none
      | some mem => some (messageOf mem data.length, stream.drop data.length)

theorem receiveRound_eq_some {cut : Cut} {stream rest : Bytes} {message : GoBackNMessageStruct}
    (h : receiveRound cut stream = some (message, rest)) :
    ∃ mem, receiveInto messageMemory (stream.take (min cut.peek headerSize)) = some mem ∧
      message.size = (stream.take (min cut.read (word mem 0))).length ∧ rest = stream.drop message.size := by
  unfold receiveRound at h
  split at h
  · cases h
  · rename_i mem hmem
    dsimp only at h
    split at h
    · cases h
    · cases h
      exact ⟨mem, hmem, rfl, rfl⟩

/-- The messages that the receiver works on until nothing is received. -/
def receiveMessages (cuts : Nat → Cut) (stream : Bytes) : Option (List GoBackNMessageStruct) :=
  match h : receiveRound (cuts 0) stream with
  | none => none
  | some (message, rest) =>
      if hsize : message.size = 0 then some []
      else (receiveMessages (fun k => cuts (k + 1)) rest).map (message :: ·)
termination_by stream.length
decreasing_by
  obtain ⟨mem, -, hlength, hrest⟩ := receiveRound_eq_some h
  rw [List.length_take] at hlength
  rw [hrest, List.length_drop]
  omega

/-- A well-formed message as the sender sends it, with the bytes that only align the flag. -/
structure SentMessage where
  message : GoBackNMessageStruct
  padding : Bytes
  padding_length : padding.length = 3
  size : message.size = headerSize + message.data.length
  data_length : message.data.length ≤ defaultPayloadSize
  fields : ∀ n ∈ [message.srcNode, message.srcAppl, message.destNode, message.destAppl, message.seqNo,
    message.seqNoExpected], IsInt32 n

/-- The fields of a header in front of the flag. -/
def SentMessage.words (sent : SentMessage) : List Nat :=
  [sent.message.size, ofInt32 sent.message.srcNode, ofInt32 sent.message.srcAppl,
    ofInt32 sent.message.destNode, ofInt32 sent.message.destAppl, ofInt32 sent.message.seqNo,
    ofInt32 sent.message.seqNoExpected]

/-- The bytes of a message in the stream. -/
def SentMessage.bytes (sent : SentMessage) : Bytes :=
  sent.words.flatMap (encode 4) ++
    ((if sent.message.hasErrors then 1 else 0) :: sent.padding ++ sent.message.data)

section Round

variable {cut : Cut} {sent : SentMessage} {rest : Bytes}

theorem SentMessage.length_bytes (sent : SentMessage) : sent.bytes.length = sent.message.size := by
  have hwords : sent.words.length = 7 := rfl
  rw [SentMessage.bytes, List.length_append, length_words, hwords, List.length_append, List.length_cons,
    sent.padding_length, sent.size, headerSize]
  omega

theorem SentMessage.header_length (sent : SentMessage) : (sent.words.flatMap (encode 4)).length = 28 :=
  length_words sent.words

theorem SentMessage.bytes_append (sent : SentMessage) (rest : Bytes) :
    sent.bytes ++ rest = sent.words.flatMap (encode 4) ++
      ((if sent.message.hasErrors then 1 else 0) :: (sent.padding ++ (sent.message.data ++ rest))) := by
  simp only [SentMessage.bytes, List.append_assoc, List.cons_append]

theorem SentMessage.size_le (sent : SentMessage) : sent.message.size ≤ messageMemory.length := by
  have hdata := sent.data_length
  rw [sent.size, messageMemory, List.length_replicate]
  omega

theorem SentMessage.headerSize_le (sent : SentMessage) : headerSize ≤ sent.message.size := by
  rw [sent.size]
  exact Nat.le_add_right _ _

/-- A message that is received whole has all of its fields. -/
theorem messageOf_bytes (sent : SentMessage) (rest : Bytes) :
    messageOf (sent.bytes ++ rest) sent.message.size = sent.message := by
  rw [sent.bytes_append]
  set behind := (if sent.message.hasErrors then 1 else 0) :: (sent.padding ++ (sent.message.data ++ rest))
    with hbehind
  have hfield : ∀ i (hi : i < 7) (n : Int), sent.words.get ⟨i, hi⟩ = ofInt32 n → IsInt32 n →
      toInt32 (word (sent.words.flatMap (encode 4) ++ behind) i) = n := by
    intro i hi n hn hrange
    have hword : word (sent.words.flatMap (encode 4) ++ behind) i = ofInt32 n % wordSize :=
      (word_words behind hi).trans (congrArg (· % wordSize) hn)
    rw [hword]
    exact toInt32_ofInt32 hrange
  have hflag : decide ((sent.words.flatMap (encode 4) ++ behind).getD 28 0 ≠ 0) = sent.message.hasErrors := by
    rw [List.getD_append_right _ _ _ _ sent.header_length.le, sent.header_length, hbehind]
    cases sent.message.hasErrors <;> rfl
  have hdata : ((sent.words.flatMap (encode 4) ++ behind).drop headerSize).take
      (sent.message.size - headerSize) = sent.message.data := by
    have hdrop : (sent.words.flatMap (encode 4) ++ behind).drop 28 = behind := by
      rw [← sent.header_length, List.drop_left]
    have hskip : behind.drop 4 = sent.message.data ++ rest := by
      rw [hbehind, List.drop_succ_cons, ← sent.padding_length, List.drop_left]
    rw [show headerSize = 28 + 4 from rfl, ← List.drop_drop, hdrop, hskip, sent.size, headerSize,
      Nat.add_sub_cancel_left, List.take_left]
  have hrange := sent.fields
  simp only [List.forall_mem_cons] at hrange
  obtain ⟨hsrcNode, hsrcAppl, hdestNode, hdestAppl, hseqNo, hexpected, -⟩ := hrange
  unfold messageOf
  rw [hfield 1 (by decide) _ rfl hsrcNode, hfield 2 (by decide) _ rfl hsrcAppl,
    hfield 3 (by decide) _ rfl hdestNode, hfield 4 (by decide) _ rfl hdestAppl,
    hfield 5 (by decide) _ rfl hseqNo, hfield 6 (by decide) _ rfl hexpected, hflag, hdata]

/-- The memory after the look, and the size in it. -/
theorem receiveInto_peek (cut : Cut) (sent : SentMessage) (rest : Bytes) :
    ∃ mem, receiveInto messageMemory ((sent.bytes ++ rest).take (min cut.peek headerSize)) = some mem ∧
      mem.length = messageMemory.length ∧ word mem 0 = sent.message.size % 256 ^ min cut.peek 4 := by
  have hfits : ((sent.bytes ++ rest).take (min cut.peek headerSize)).length ≤ messageMemory.length := by
    rw [List.length_take, messageMemory, List.length_replicate]
    omega
  have hfirst : sent.bytes ++ rest = encode 4 sent.message.size ++ (sent.bytes ++ rest).drop 4 := by
    rw [sent.bytes_append]
    rfl
  refine ⟨_, if_pos hfits, ?_, ?_⟩
  · rw [List.length_append, List.length_drop]
    omega
  · rw [messageMemory, List.drop_replicate]
    conv_lhs => rw [hfirst]
    rw [word_seen, min_assoc]
    rfl

/-- Both calls of a round return what a message needs. -/
def Cut.Whole (cut : Cut) (sent : SentMessage) : Prop :=
  (2 ≤ cut.peek ∨ sent.message.size < 256) ∧ sent.message.size ≤ cut.read

/-- One byte of the size is enough for a small message, two are for all. -/
theorem size_seen (cut : Cut) (sent : SentMessage) :
    sent.message.size % 256 ^ min cut.peek 4 = sent.message.size ↔ 2 ≤ cut.peek ∨ sent.message.size < 256 := by
  have hmax := sent.size_le
  rw [messageMemory, List.length_replicate] at hmax
  have hpos := cut.peek_pos
  rw [Nat.mod_eq_iff_lt (Nat.pow_pos (by decide)).ne']
  rcases Nat.lt_or_ge 1 cut.peek with htwo | hone
  · refine iff_of_true ?_ (.inl htwo)
    calc sent.message.size ≤ headerSize + defaultPayloadSize := hmax
      _ < 256 ^ 2 := by decide
      _ ≤ 256 ^ min cut.peek 4 := Nat.pow_le_pow_right (by decide) (le_min htwo (by decide))
  · have heq : cut.peek = 1 := le_antisymm hone hpos
    rw [heq]
    constructor
    · exact .inr
    · rintro (htwo | hlt)
      · exact absurd htwo (by decide)
      · exact hlt

/-- **One round.** A whole message is taken from the stream and nothing else. -/
theorem receiveRound_whole (h : cut.Whole sent) :
    receiveRound cut (sent.bytes ++ rest) = some (sent.message, rest) := by
  obtain ⟨mem, hpeek, hlength, hword⟩ := receiveInto_peek cut sent rest
  rw [(size_seen cut sent).mpr h.1] at hword
  have hdata : (sent.bytes ++ rest).take (min cut.read (word mem 0)) = sent.bytes := by
    rw [hword, Nat.min_eq_right h.2, ← sent.length_bytes, List.take_left]
  have hfits : sent.bytes.length ≤ mem.length := by
    rw [sent.length_bytes, hlength]
    exact sent.size_le
  rw [receiveRound, hpeek]
  dsimp only
  rw [hdata, receiveInto, if_pos hfits]
  dsimp only
  rw [List.drop_left, sent.length_bytes, messageOf_bytes]

/-- A round in which one of the calls returns too little makes a smaller message. -/
theorem receiveRound_short {message : GoBackNMessageStruct} {behind : Bytes} (h : ¬cut.Whole sent)
    (hround : receiveRound cut (sent.bytes ++ rest) = some (message, behind)) :
    message.size < sent.message.size := by
  obtain ⟨mem, hpeek, -, hword⟩ := receiveInto_peek cut sent rest
  obtain ⟨mem', hpeek', hsize, -⟩ := receiveRound_eq_some hround
  obtain rfl : mem = mem' := Option.some.inj (hpeek.symm.trans hpeek')
  have hle : message.size ≤ min cut.read (word mem 0) := by
    rw [hsize]
    exact List.length_take_le _ _
  have hmod : word mem 0 ≤ sent.message.size := hword.le.trans (Nat.mod_le _ _)
  rcases not_and_or.mp h with hpeeked | hread
  · have hne : word mem 0 ≠ sent.message.size := fun heq =>
      hpeeked ((size_seen cut sent).mp (hword.symm.trans heq))
    omega
  · omega

end Round

theorem receiveMessages_eq (cuts : Nat → Cut) (stream : Bytes) :
    receiveMessages cuts stream =
      match receiveRound (cuts 0) stream with
      | none => none
      | some (message, rest) =>
          if message.size = 0 then some []
          else (receiveMessages (fun k => cuts (k + 1)) rest).map (message :: ·) := by
  rw [receiveMessages]
  split
  · rename_i hround
    rw [hround]
  · rename_i message rest hround
    rw [hround]
    rfl

section Stream

variable {cuts : Nat → Cut} {sent : SentMessage} {rest : Bytes}

theorem receiveMessages_nil : receiveMessages cuts [] = some [] := by
  obtain ⟨message, hround, hsize⟩ :
      ∃ message, receiveRound (cuts 0) [] = some (message, []) ∧ message.size = 0 := by
    simp [receiveRound, receiveInto, messageOf]
  rw [receiveMessages_eq, hround]
  exact if_pos hsize

theorem receiveMessages_whole (h : (cuts 0).Whole sent) :
    receiveMessages cuts (sent.bytes ++ rest) =
      (receiveMessages (fun k => cuts (k + 1)) rest).map (sent.message :: ·) := by
  have hsize : sent.message.size ≠ 0 := by
    have hheader := sent.headerSize_le
    rw [headerSize] at hheader
    omega
  rw [receiveMessages_eq, receiveRound_whole h]
  exact if_neg hsize

/-- After a round that is cut short the messages are other ones. -/
theorem receiveMessages_short (h : ¬(cuts 0).Whole sent) (messages : List GoBackNMessageStruct) :
    receiveMessages cuts (sent.bytes ++ rest) ≠ some (sent.message :: messages) := by
  intro hreceived
  rw [receiveMessages_eq] at hreceived
  split at hreceived
  · cases hreceived
  · rename_i message behind hround
    have hlt : message.size < sent.message.size := receiveRound_short h hround
    split at hreceived
    · cases hreceived
    · obtain ⟨received, -, heq⟩ := Option.map_eq_some_iff.mp hreceived
      have hhead : message = sent.message := (List.cons.inj heq).1
      rw [hhead] at hlt
      exact lt_irrefl _ hlt

end Stream

/-- The messages in the stream are the ones that the receiver gets exactly if in the round of each message
the look returns enough of its size and the second call returns all of it. -/
theorem received_iff (messages : List SentMessage) (cuts : Nat → Cut) :
    receiveMessages cuts (messages.flatMap SentMessage.bytes) = some (messages.map SentMessage.message) ↔
      ∀ k, ∀ sent ∈ messages[k]?,
        (2 ≤ (cuts k).peek ∨ sent.message.size < 256) ∧ sent.message.size ≤ (cuts k).read := by
  induction messages generalizing cuts with
  | nil => simp [receiveMessages_nil]
  | cons sent messages ih =>
      have hsplit : (∀ k, ∀ m ∈ (sent :: messages)[k]?, (cuts k).Whole m) ↔
          (cuts 0).Whole sent ∧ ∀ k, ∀ m ∈ messages[k]?, (cuts (k + 1)).Whole m := by
        constructor
        · intro h
          exact ⟨h 0 sent rfl, fun k => h (k + 1)⟩
        · rintro ⟨hhead, htail⟩ k
          cases k with
          | zero =>
              intro m hm
              obtain rfl : sent = m := Option.some.inj hm
              exact hhead
          | succ k => exact htail k
      rw [List.flatMap_cons, List.map_cons]
      refine Iff.trans ?_ hsplit.symm
      by_cases hwhole : (cuts 0).Whole sent
      · rw [receiveMessages_whole hwhole, and_iff_right hwhole]
        refine Iff.trans ?_ (ih fun k => cuts (k + 1))
        exact ⟨fun h => (Option.map_injective List.cons_injective) h, fun h => h ▸ rfl⟩
      · refine iff_of_false (receiveMessages_short hwhole _) fun h => hwhole h.1

/-- The message that ends a file. -/
def lastMessage : SentMessage :=
  ⟨⟨headerSize, 0, 0, 0, 0, 0, -1, false, []⟩, [0, 0, 0], rfl, rfl, by decide, by decide⟩

/-- A message of which the second call returns all but the last byte is taken for a whole one, and its last
byte for the beginning of the next. -/
theorem partial_message_is_taken :
    receiveRound ⟨32, 31, by decide, by decide⟩ lastMessage.bytes =
        some ({ lastMessage.message with size := 31 }, [0]) ∧
      ¬∀ (messages : List SentMessage) (cuts : Nat → Cut),
        receiveMessages cuts (messages.flatMap SentMessage.bytes) =
          some (messages.map SentMessage.message) := by
  refine ⟨by decide +kernel, fun hall => ?_⟩
  let cut : Cut := ⟨32, 31, by decide, by decide⟩
  have hshort : ¬cut.Whole lastMessage := by
    rintro ⟨-, hread⟩
    exact absurd hread (by decide)
  have hreceived := hall [lastMessage] fun _ => cut
  rw [List.flatMap_singleton, ← List.append_nil lastMessage.bytes] at hreceived
  exact @receiveMessages_short (fun _ => cut) lastMessage [] hshort [] hreceived

end ComputerNetworking.GoBackN
