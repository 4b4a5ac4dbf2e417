import EbpfSyscall.Kvio.Framing
import EbpfSyscall.Lib.Checked

/-!
# Messages come back as they were sent

Whatever the segments are in which the bytes of some messages arrive, the calls of `recv` return the messages in order. When the connection
ends before all bytes have arrived, they return the messages that have arrived whole and then `None`.
-/

namespace EbpfSyscall.Framing

open Segments List Option

variable {μ : Type}

/-- The number of bytes of a frame. -/
def frameLength (codec : Codec μ) (message : μ) : Nat := 4 + (codec.dumps message).length

/-- How many of the messages are whole in the first `received` bytes. -/
def wholeMessages (codec : Codec μ) : List μ → Nat → Nat
  | [], _ => 0
  | message :: rest, received =>
    if frameLength codec message ≤ received then wholeMessages codec rest (received - frameLength codec message) + 1 else 0

namespace FramingAux

theorem toNat_ofNat (n : Nat) : (UInt8.ofNat n).toNat = n % 256 := rfl

variable {n : Nat} {codec : Codec μ} {sock : Socket} {frame : List UInt8} {message : μ}

theorem length_pack {head : List UInt8} (h : pack n = some head) : head.length = 4 := by
  unfold pack at h
  split at h
  · obtain rfl := some.inj h
    rfl
  · nomatch h

theorem unpack_pack {head : List UInt8} (h : pack n = some head) : unpack head = n := by
  unfold pack at h
  split at h
  next hlt =>
    obtain rfl := some.inj h
    simp only [unpack, foldl_cons, foldl_nil, toNat_ofNat]
    omega
  next => nomatch h

/-- Reading as many bytes as have arrived. -/
theorem recvExact_of_le (sock : Socket) (h : n ≤ sock.items.length) :
    ∃ next, recvExact sock n = (some (sock.items.take n), next) ∧ next.items = sock.items.drop n := by
  have hspec := (readUntil_spec n [] sock (Nat.zero_le n)).1 h
  exact ⟨(readUntil n [] sock).2, Prod.ext hspec.1 rfl, hspec.2⟩

/-- Reading more bytes than there are. -/
theorem recvExact_of_lt (sock : Socket) (h : sock.items.length < n) : ∃ next, recvExact sock n = (none, next) := by
  have hspec := (readUntil_spec n [] sock (Nat.zero_le n)).2 h
  exact ⟨(readUntil n [] sock).2, Prod.ext hspec rfl⟩

/-- A frame that has arrived whole. -/
theorem recv_whole (hsend : send codec message = some frame) {later : List UInt8} (harrived : sock.items = frame ++ later) :
    ∃ next, recv codec sock = .ok (some message, next) ∧ next.items = later := by
  obtain ⟨head, hpack, hframe⟩ := bind_eq_some_iff.mp hsend
  obtain rfl := some.inj hframe
  have hhead := length_pack hpack
  rw [append_assoc] at harrived
  obtain ⟨afterHead, hrecvHead, hafterHead⟩ := recvExact_of_le sock (n := 4) (by rw [harrived, length_append]; omega)
  rw [harrived, take_left' hhead] at hrecvHead
  rw [harrived, drop_left' hhead] at hafterHead
  obtain ⟨afterBody, hrecvBody, hafterBody⟩ := recvExact_of_le afterHead (n := (codec.dumps message).length)
    (by rw [hafterHead, length_append]; omega)
  rw [hafterHead, take_left' rfl] at hrecvBody
  rw [hafterHead, drop_left' rfl] at hafterBody
  refine ⟨afterBody, ?_, hafterBody⟩
  simp only [recv, hrecvHead, unpack_pack hpack, hrecvBody, codec.loads_dumps, bind, Except.bind]

/-- A frame of which only a front has arrived, or nothing at all. -/
theorem recv_cut (hsend : send codec message = some frame)
    {missing : List UInt8} (harrived : sock.items ++ missing = frame) (hmissing : missing ≠ []) :
    ∃ next, recv codec sock = .ok (none, next) := by
  obtain ⟨head, hpack, hframe⟩ := bind_eq_some_iff.mp hsend
  obtain rfl := some.inj hframe
  have hhead := length_pack hpack
  have hlength := congrArg length harrived
  have hpos := length_pos_iff.mpr hmissing
  rw [length_append, length_append] at hlength
  by_cases hshort : sock.items.length < 4
  · obtain ⟨next, hnext⟩ := recvExact_of_lt sock hshort
    exact ⟨next, by simp only [recv, hnext]⟩
  · -- the head has arrived, and a front of the body
    obtain ⟨afterHead, hrecvHead, hafterHead⟩ := recvExact_of_le sock (n := 4) (by omega)
    have hfront : sock.items.take 4 = head := by
      have htake := congrArg (take 4) harrived
      rwa [take_append_of_le_length (by omega), take_left' hhead] at htake
    rw [hfront] at hrecvHead
    obtain ⟨next, hnext⟩ := recvExact_of_lt afterHead (n := (codec.dumps message).length)
      (by rw [hafterHead, length_drop]; omega)
    exact ⟨next, by simp only [recv, hrecvHead, unpack_pack hpack, hnext]⟩

theorem recv_end (codec : Codec μ) (h : sock.items = []) : ∃ next, recv codec sock = .ok (none, next) := by
  obtain ⟨next, hnext⟩ := recvExact_of_lt sock (n := 4) (by rw [h]; decide)
  exact ⟨next, by simp only [recv, hnext]⟩

theorem length_send (h : send codec message = some frame) : frame.length = frameLength codec message := by
  obtain ⟨head, hpack, hframe⟩ := bind_eq_some_iff.mp h
  obtain rfl := some.inj hframe
  rw [length_append, length_pack hpack, frameLength]

theorem wholeMessages_of_length_le (messages : List μ) {stream : List UInt8} (hsend : sendAll codec messages = some stream) :
    wholeMessages codec messages stream.length = messages.length := by
  induction messages generalizing stream with
  | nil => rfl
  | cons message rest ih =>
    obtain ⟨frame, hframe, hrest⟩ := bind_eq_some_iff.mp hsend
    obtain ⟨later, hlater, hstream⟩ := bind_eq_some_iff.mp hrest
    obtain rfl := some.inj hstream
    have hlength := length_send hframe
    rw [wholeMessages, length_append, if_pos (by omega), hlength, Nat.add_sub_cancel_left, ih hlater, length_cons]

/-- What the calls return, from any front of the stream. -/
theorem recvs_of_front (messages : List μ) {stream : List UInt8} (hsend : sendAll codec messages = some stream) {missing : List UInt8} (harrived : sock.items ++ missing = stream) :
    ∃ next, recvs codec (wholeMessages codec messages sock.items.length + 1) sock =
      .ok ((messages.take (wholeMessages codec messages sock.items.length)).map some ++ [none], next) := by
  induction messages generalizing stream sock with
  | nil =>
    obtain rfl := some.inj hsend
    obtain ⟨next, hnext⟩ := recv_end codec (append_eq_nil_iff.mp harrived).1
    exact ⟨next, by simp only [wholeMessages, recvs, hnext, bind, Except.bind]; rfl⟩
  | cons message rest ih =>
    obtain ⟨frame, hframe, hrest⟩ := bind_eq_some_iff.mp hsend
    obtain ⟨later, hlater, hstream⟩ := bind_eq_some_iff.mp hrest
    obtain rfl := some.inj hstream
    have hlength := length_send hframe
    rw [wholeMessages]
    by_cases hwhole : frameLength codec message ≤ sock.items.length
    · -- the first frame is whole, and the rest of what has arrived is a front of the later frames
      obtain ⟨front, hfront, hmissing⟩ : ∃ front, sock.items = frame ++ front ∧ front ++ missing = later := by
        have hsplit := append_eq_append_iff.mp harrived
        rcases hsplit with ⟨middle, hframe', hmiddle⟩ | ⟨middle, hitems, hmiddle⟩
        · have hmiddleNil : middle = [] := by
            have := congrArg length hframe'
            rw [length_append] at this
            exact length_eq_zero_iff.mp (by omega)
          rw [hmiddleNil, append_nil] at hframe'
          rw [hmiddleNil, nil_append] at hmiddle
          exact ⟨[], by rw [hframe', append_nil], by rw [nil_append, hmiddle]⟩
        · exact ⟨middle, hitems, hmiddle.symm⟩
      obtain ⟨afterFirst, hrecv, hafter⟩ := recv_whole hframe hfront
      have hlaterFront : afterFirst.items ++ missing = later := by rw [hafter, hmissing]
      obtain ⟨next, hnext⟩ := ih hlater hlaterFront
      have hreceived : sock.items.length - frameLength codec message = afterFirst.items.length := by
        rw [hfront, length_append, hlength, Nat.add_sub_cancel_left, hafter]
      rw [if_pos hwhole, hreceived]
      refine ⟨next, ?_⟩
      rw [recvs]
      simp only [hrecv, hnext, bind, Except.bind]
      rfl
    · -- what has arrived is a proper front of the first frame
      obtain ⟨cut, hcut, hne⟩ : ∃ cut, sock.items ++ cut = frame ∧ cut ≠ [] := by
        rcases append_eq_append_iff.mp harrived with ⟨cut, hframe', _⟩ | ⟨middle, hitems, _⟩
        · refine ⟨cut, hframe'.symm, ?_⟩
          rintro rfl
          rw [append_nil] at hframe'
          rw [← hframe', hlength] at hwhole
          exact hwhole (le_refl _)
        · rw [hitems, length_append, hlength] at hwhole
          exact absurd (Nat.le_add_right _ _) hwhole
      obtain ⟨next, hnext⟩ := recv_cut hframe hcut hne
      rw [if_neg hwhole]
      exact ⟨next, by simp only [recvs, hnext, bind, Except.bind]; rfl⟩

theorem exists_sendAll (codec : Codec μ) (messages : List μ) (hshort : ∀ message ∈ messages, (codec.dumps message).length < 2 ^ 32) :
    ∃ stream, sendAll codec messages = some stream := by
  induction messages with
  | nil => exact ⟨[], rfl⟩
  | cons message rest ih =>
    obtain ⟨hfirst, hrest⟩ := forall_mem_cons.mp hshort
    obtain ⟨later, hlater⟩ := ih hrest
    rw [sendAll, send, pack, if_pos hfirst, hlater]
    exact ⟨_, rfl⟩

end FramingAux

open FramingAux

/-- However the bytes of the messages are cut into segments, and wherever the stream ends, the calls of `recv` return the messages that have
arrived whole and then `None`. These are all messages when all bytes have arrived. -/
theorem recvs_sendAll (codec : Codec μ) (messages : List μ) (hshort : ∀ message ∈ messages, (codec.dumps message).length < 2 ^ 32) :
    ∃ stream, sendAll codec messages = some stream ∧ ∀ sock : Socket, sock.items <+: stream →
      (∃ next, recvs codec (wholeMessages codec messages sock.items.length + 1) sock =
        .ok ((messages.take (wholeMessages codec messages sock.items.length)).map some ++ [none], next)) ∧
      (sock.items = stream → wholeMessages codec messages sock.items.length = messages.length) := by
  obtain ⟨stream, hsend⟩ := exists_sendAll codec messages hshort
  refine ⟨stream, hsend, fun sock hfront => ⟨?_, fun hall => ?_⟩⟩
  · obtain ⟨missing, harrived⟩ := hfront
    exact recvs_of_front messages hsend harrived
  · rw [hall]
    exact wholeMessages_of_length_le messages hsend

/-- Messages of one byte. -/
def byteCodec : Codec UInt8 where
  dumps byte := [byte]
  loads
    | [byte] => .ok byte
    | _ => .error (.valueError "not one byte")
  loads_dumps _ := rfl

/-- Two messages of one byte, the second of them cut off in its head; the first arrives in two segments. -/
theorem recvs_sendAll_cut : ∃ next, recvs byteCodec 2 ⟨[[0, 0], [0, 1, 7, 0, 0]], by decide⟩ = .ok ([some 7, none], next) := by
  obtain ⟨stream, hsend, hrecv⟩ := recvs_sendAll byteCodec [7, 8] fun _ _ => show 1 < 2 ^ 32 by norm_num
  obtain rfl : [0, 0, 0, 1, 7, 0, 0, 0, 1, 8] = stream := Option.some.inj hsend
  exact (hrecv ⟨[[0, 0], [0, 1, 7, 0, 0]], by decide⟩ (by decide)).1

end EbpfSyscall.Framing
