import AnnotationBands.Group.Change
import AnnotationBands.Group.Pack
import AnnotationBands.Proofs.Steps
/-!
# What packing leaves behind

Bands are encoded and written one by one, and either may fail: a codec may
refuse a band, and a writer may run out of room. Where a band ends and in which
pieces its bytes are taken makes no difference to what has been received. That
is the encodings of the bands ahead of the first refusal, one behind the other,
or as much of them as there is room for; and no room comes ahead of the refusal.
Writing bytes and then answering has one account (`Writer.Leaves`), one step
after the other adds up (`Writer.Leaves.bind`), and packing is such a sequence
of steps. Main statement: `Group.pack_until_full`.
-/

namespace AnnotationBands

namespace Writer

variable {σ α β : Type} {w : Writer σ} {received : σ → List UInt8} {room : σ → Option Nat}

/-! ## One piece after the other -/

section

variable {bytes : List UInt8} {s t : σ}

theorem writeAll_nil (s : σ) : w.writeAll [] s = .ok () s := by
  rw [writeAll, if_pos rfl]

theorem writeAll_of_fault (hbytes : bytes ≠ []) {fault : IoFault} (hwrite : w.write bytes s = (.error fault, t)) :
    w.writeAll bytes s = .error (.io fault) t := by
  rw [writeAll, if_neg hbytes, hwrite]

theorem writeAll_of_taken (hbytes : bytes ≠ []) {n : Nat} (hn : n ≠ 0) (hwrite : w.write bytes s = (.ok n, t)) :
    w.writeAll bytes s = w.writeAll (bytes.drop n) t := by
  rw [writeAll, if_neg hbytes, hwrite]
  exact if_neg hn

end

/-! ## A writer of limited room -/

/-- A writer with a view of what it has received and of how many bytes it still
takes, `none` for any number. While there is room it takes at least one of the
bytes that it is offered, and then it fails. One that is interrupted for ever does
neither, so it is no such writer. -/
structure Fills (w : Writer σ) (received : σ → List UInt8) (room : σ → Option Nat) : Prop where
  takes : ∀ bytes s, bytes ≠ [] → room s ≠ some 0 → ∃ n t, w.write bytes s = (.ok n, t) ∧ 0 < n ∧ n ≤ bytes.length ∧
    (∀ most, room s = some most → n ≤ most) ∧ received t = received s ++ bytes.take n ∧
    room t = (room s).map (· - n)
  fails : ∀ bytes s, bytes ≠ [] → room s = some 0 → ∃ fault t, w.write bytes s = (.error fault, t) ∧
    received t = received s ∧ room t = some 0

/-- What the writer says, and how it is left, when it is offered bytes and has
no room. -/
def Refuses (w : Writer σ) (room : σ → Option Nat) (fault : IoFault) (t : σ) : Prop :=
  ∃ bytes s, bytes ≠ [] ∧ room s = some 0 ∧ w.write bytes s = (.error fault, t)

/-- How it ends to write bytes and then to answer. If there is room for the
bytes they have been received and the answer is given, and if not, as many have
been received as there is room for and the writer's fault is the error. -/
structure Leaves (w : Writer σ) (received : σ → List UInt8) (room : σ → Option Nat) (s : σ) (bytes : List UInt8)
    (answer : Except BandError α) (r : EStateM.Result BandError σ α) : Prop where
  whole : (∀ most, room s = some most → bytes.length ≤ most) → ∃ t, r = BandError.orThrow answer t ∧
    received t = received s ++ bytes ∧ room t = (room s).map (· - bytes.length)
  cut : ∀ most, room s = some most → most < bytes.length → ∃ fault t, r = .error (.io fault) t ∧
    w.Refuses room fault t ∧ received t = received s ++ bytes.take most ∧ room t = some 0

namespace Leaves

variable {s : σ} {xs ys : List UInt8} {x : EStateM BandError σ α}

theorem nothing (answer : Except BandError α) :
    w.Leaves received room s [] answer (BandError.orThrow answer s) where
  whole := by
    intro _
    refine ⟨s, rfl, by simp, ?_⟩
    cases room s <;> simp
  cut := by
    intro most _ hmost
    simp at hmost

/-- One after the other, the bytes stand one behind the other. -/
theorem bind {a : α} {f : α → EStateM BandError σ β} {answer : Except BandError β}
    (hx : w.Leaves received room s xs (.ok a) (x s))
    (hf : ∀ t, x s = .ok a t → w.Leaves received room t ys answer (f a t)) :
    w.Leaves received room s (xs ++ ys) answer ((x >>= f) s) where
  whole := by
    intro hfits
    have hxs : ∀ most, room s = some most → xs.length ≤ most := fun most hmost => by
      have := hfits most hmost
      rw [List.length_append] at this
      omega
    obtain ⟨t, hr, hreceived, hroom⟩ := hx.whole hxs
    have hys : ∀ most, room t = some most → ys.length ≤ most := by
      intro most hmost
      rw [hroom, Option.map_eq_some_iff] at hmost
      obtain ⟨all, hall, rfl⟩ := hmost
      have := hfits all hall
      rw [List.length_append] at this
      omega
    obtain ⟨u, hr', hreceived', hroom'⟩ := (hf t hr).whole hys
    refine ⟨u, (bind_of_ok hr).trans hr', by rw [hreceived', hreceived, List.append_assoc], ?_⟩
    rw [hroom', hroom, Option.map_map, List.length_append]
    congr 1
    funext n
    exact Nat.sub_sub ..
  cut := by
    intro most hmost hlong
    rw [List.length_append] at hlong
    by_cases hxs : most < xs.length
    · obtain ⟨fault, t, hr, hrefuses, hreceived, hroom⟩ := hx.cut most hmost hxs
      refine ⟨fault, t, bind_of_error hr, hrefuses, ?_, hroom⟩
      rw [hreceived, List.take_append_of_le_length (Nat.le_of_lt hxs)]
    · have hfits : ∀ n, room s = some n → xs.length ≤ n := by
        intro n hn
        obtain rfl : most = n := Option.some.inj (hmost.symm.trans hn)
        exact Nat.le_of_not_lt hxs
      obtain ⟨t, hr, hreceived, hroom⟩ := hx.whole hfits
      rw [hmost, Option.map_some] at hroom
      obtain ⟨fault, u, hr', hrefuses, hreceived', hroom'⟩ := (hf t hr).cut _ hroom (by omega)
      refine ⟨fault, u, (bind_of_ok hr).trans hr', hrefuses, ?_, hroom'⟩
      rw [hreceived', hreceived, List.append_assoc, List.take_append, List.take_of_length_le (Nat.le_of_not_lt hxs)]

/-- What is made of the answer changes nothing else. -/
theorem map {answer : Except BandError α} (f : α → β) (hx : w.Leaves received room s xs answer (x s)) :
    w.Leaves received room s xs (answer.map f) ((do let a ← x; return f a : EStateM BandError σ β) s) where
  whole := by
    intro hfits
    obtain ⟨t, hr, hreceived, hroom⟩ := hx.whole hfits
    refine ⟨t, ?_, hreceived, hroom⟩
    cases answer with
    | ok a => exact bind_of_ok hr
    | error e => exact bind_of_error hr
  cut := by
    intro most hmost hlong
    obtain ⟨fault, t, hr, hrefuses, hreceived, hroom⟩ := hx.cut most hmost hlong
    exact ⟨fault, t, bind_of_error hr, hrefuses, hreceived, hroom⟩

end Leaves

variable {bytes : List UInt8} {s t : σ}

/-- A writer fails only for want of room. -/
theorem Fills.refused (h : w.Fills received room) (hbytes : bytes ≠ []) {fault : IoFault}
    (hwrite : w.write bytes s = (.error fault, t)) :
    w.Leaves received room s bytes (.ok ()) (.error (.io fault) t) := by
  have hfull : room s = some 0 := by
    by_contra hroom
    obtain ⟨n, u, htaken, -⟩ := h.takes bytes s hbytes hroom
    rw [hwrite] at htaken
    cases htaken
  obtain ⟨_, _, hfails, hreceived, hroom⟩ := h.fails bytes s hbytes hfull
  obtain ⟨⟨⟩, rfl⟩ := Prod.mk.inj (hwrite.symm.trans hfails)
  refine ⟨?_, ?_⟩
  · intro hfits
    have hlength := hfits 0 hfull
    exact absurd (List.length_eq_zero_iff.1 (Nat.le_zero.1 hlength)) hbytes
  · intro most hmost _
    obtain rfl : 0 = most := Option.some.inj (hfull.symm.trans hmost)
    exact ⟨fault, t, rfl, ⟨bytes, s, hbytes, hfull, hwrite⟩, by simpa using hreceived, hroom⟩

/-- What a writer takes, it has room for. -/
theorem Fills.taken (h : w.Fills received room) (hbytes : bytes ≠ []) {n : Nat}
    (hwrite : w.write bytes s = (.ok n, t)) :
    0 < n ∧ w.Leaves received room s (bytes.take n) (.ok ()) (.ok () t) := by
  have hroom : room s ≠ some 0 := by
    intro hfull
    obtain ⟨fault, u, hfails, -⟩ := h.fails bytes s hbytes hfull
    rw [hwrite] at hfails
    cases hfails
  obtain ⟨_, _, htaken, hpos, hn, hmost, hreceived, hleft⟩ := h.takes bytes s hbytes hroom
  obtain ⟨⟨⟩, rfl⟩ := Prod.mk.inj (hwrite.symm.trans htaken)
  have hlength : (bytes.take n).length = n := List.length_take_of_le hn
  refine ⟨hpos, ?_, ?_⟩
  · intro _
    rw [hlength]
    exact ⟨t, rfl, hreceived, hleft⟩
  · intro most hsome hlong
    have := hmost most hsome
    omega

/-- However large the pieces are that a writer takes, it receives all the bytes
that it has room for. -/
theorem Fills.writeAll (h : w.Fills received room) (bytes : List UInt8) (s : σ) :
    w.Leaves received room s bytes (.ok ()) (w.writeAll bytes s) := by
  induction bytes, s using Writer.writeAll.induct w with
  | case1 s =>
    rw [writeAll_nil]
    exact .nothing (.ok ())
  | case2 bytes s hbytes fault t hwrite =>
    rw [writeAll_of_fault hbytes hwrite]
    exact h.refused hbytes hwrite
  | case3 bytes s hbytes t hwrite => exact absurd (h.taken hbytes hwrite).1 (Nat.lt_irrefl 0)
  | case4 bytes s hbytes n t hwrite hn ih =>
    have hpiece := (h.taken hbytes hwrite).2
    have hall := hpiece.bind (x := fun _ => .ok () t) (f := fun _ => w.writeAll (bytes.drop n)) fun u hu => by
      obtain ⟨-, rfl⟩ := EStateM.Result.ok.inj hu
      exact ih
    rw [List.take_append_drop] at hall
    rw [writeAll_of_taken hbytes hn hwrite]
    exact hall

end Writer

/-! ## A sink, in pieces or not -/

namespace Sink

theorem write_of_fits {bytes : List UInt8} {sink : Sink} (h : ∀ most, sink.room = some most → bytes.length ≤ most) :
    write bytes sink = .ok ()
      { sink with room := sink.room.map (· - bytes.length), received := sink.received ++ bytes } := by
  rcases sink with ⟨room, fault, received⟩
  cases room with
  | none => rfl
  | some most => exact if_pos (h most rfl)

theorem write_of_lt {bytes : List UInt8} {sink : Sink} {most : Nat} (hroom : sink.room = some most)
    (hlong : most < bytes.length) : write bytes sink = .error (.io sink.fault)
      { sink with room := some 0, received := sink.received ++ bytes.take most } := by
  rcases sink with ⟨room, fault, received⟩
  obtain rfl : room = some most := hroom
  exact if_neg (Nat.not_le_of_lt hlong)

/-- A write may be cut in two anywhere. -/
theorem write_append (xs ys : List UInt8) : write (xs ++ ys) = (do write xs; write ys) := by
  funext ⟨room, fault, received⟩
  cases room with
  | none =>
    rw [bind_of_ok (write_of_fits (by simp)), write_of_fits (by simp), write_of_fits (by simp)]
    simp
  | some most =>
    by_cases hxs : xs.length ≤ most
    · rw [bind_of_ok (write_of_fits (by simpa using hxs))]
      by_cases hys : xs.length + ys.length ≤ most
      · rw [write_of_fits (by simpa using hys), write_of_fits (by simp; omega)]
        simp [Nat.sub_sub]
      · have hlong : most - xs.length < ys.length := by omega
        rw [write_of_lt rfl (by simp; omega), write_of_lt rfl hlong]
        simp [List.take_append, List.take_of_length_le hxs]
    · have hlong : most < xs.length := Nat.lt_of_not_le hxs
      rw [bind_of_error (write_of_lt rfl hlong), write_of_lt rfl (by simp; omega)]
      simp [List.take_append_of_le_length (Nat.le_of_lt hlong)]

end Sink

namespace Writer

variable {size : List UInt8 → Nat} {bytes : List UInt8} {sink : Sink}

theorem pieces_of_full (hbytes : bytes ≠ []) (hfull : sink.room = some 0) :
    (pieces size).write bytes sink = (.error sink.fault, sink) := if_pos ⟨hfull, hbytes⟩

/-- A piece is a write of its own, which fits. -/
theorem pieces_of_room (size : List UInt8 → Nat) (hbytes : bytes ≠ []) (hroom : sink.room ≠ some 0) :
    ∃ n t, (pieces size).write bytes sink = (.ok n, t) ∧ 0 < n ∧ n ≤ bytes.length ∧
      (∀ most, sink.room = some most → n ≤ most) ∧ Sink.write (bytes.take n) sink = .ok () t := by
  obtain ⟨piece, hpiece⟩ : ∃ piece, piece = sink.room.elim (size bytes + 1) (min (size bytes + 1)) := ⟨_, rfl⟩
  have hpos : 0 < piece := by
    cases hr : sink.room with
    | none => simp [hpiece, hr]
    | some most =>
      have : most ≠ 0 := fun h => hroom (by rw [hr, h])
      simp only [hpiece, hr, Option.elim_some]
      omega
  have hmost : ∀ most, sink.room = some most → piece ≤ most := by
    intro most hr
    simp only [hpiece, hr, Option.elim_some]
    exact Nat.min_le_right ..
  have hlength : 0 < bytes.length := List.length_pos_iff.2 hbytes
  have htake : bytes.take (bytes.take piece).length = bytes.take piece := by simp [List.take_eq_take_iff]
  have hfits : ∀ most, sink.room = some most → (bytes.take piece).length ≤ most := by
    intro most hr
    exact Nat.le_trans (List.length_take_le ..) (hmost most hr)
  have hwrite : (pieces size).write bytes sink = (.ok (bytes.take piece).length, { sink with
      room := sink.room.map (· - (bytes.take piece).length), received := sink.received ++ bytes.take piece }) := by
    rw [hpiece]
    exact if_neg fun h => hroom h.1
  refine ⟨_, _, hwrite, ?_, List.length_take_le' .., hfits, ?_⟩
  · rw [List.length_take]
    omega
  · rw [htake]
    exact Sink.write_of_fits hfits

theorem fills_pieces : (pieces size).Fills (·.received) (·.room) where
  takes bytes sink hbytes hroom := by
    obtain ⟨n, t, hwrite, hpos, hn, hmost, hpiece⟩ := pieces_of_room size hbytes hroom
    have hlength : (bytes.take n).length = n := List.length_take_of_le hn
    rw [Sink.write_of_fits (by rwa [hlength]), hlength] at hpiece
    obtain rfl := (EStateM.Result.ok.inj hpiece).2
    exact ⟨n, _, hwrite, hpos, hn, hmost, rfl, rfl⟩
  fails bytes sink hbytes hfull := ⟨sink.fault, sink, pieces_of_full hbytes hfull, rfl, hfull⟩

/-- A sink comes to the same in pieces of any size as at once. -/
theorem writeAll_pieces (size : List UInt8 → Nat) (bytes : List UInt8) :
    (pieces size).writeAll bytes = Sink.write bytes := by
  funext sink
  induction hlength : bytes.length using Nat.strong_induction_on generalizing bytes sink with
  | _ length ih =>
    by_cases hbytes : bytes = []
    · subst hbytes
      rw [writeAll_nil, Sink.write_of_fits (by simp)]
      simp
    by_cases hroom : sink.room = some 0
    · rw [writeAll_of_fault hbytes (pieces_of_full hbytes hroom),
        Sink.write_of_lt hroom (List.length_pos_iff.2 hbytes)]
      simp [← hroom]
    · obtain ⟨n, t, hwrite, hpos, hn, -, hpiece⟩ := pieces_of_room size hbytes hroom
      rw [writeAll_of_taken hbytes (Nat.ne_of_gt hpos) hwrite, ih _ (by rw [List.length_drop]; omega) _ t rfl]
      calc Sink.write (bytes.drop n) t
          = (do Sink.write (bytes.take n); Sink.write (bytes.drop n)) sink :=
            (bind_of_ok (f := fun _ => Sink.write (bytes.drop n)) hpiece).symm
        _ = Sink.write bytes sink := by rw [← Sink.write_append, List.take_append_drop]

end Writer

/-! ## Packing bands -/

namespace Group

/-- What bands are encoded as, one by one. -/
def encodings (codec : BandCodec) (bands : Bands) (bs : List Band) : List (Except BandError (List UInt8)) :=
  bs.map fun b => codec.encode b.codec (bands.get b)

/-- The bytes up to the first refusal, one encoding behind the other. -/
def bytesAhead : List (Except BandError (List UInt8)) → List UInt8
  | .ok bytes :: more => bytes ++ bytesAhead more
  | .error _ :: _ => []
  | [] => []

/-- The first refusal. -/
def firstRefusal : List (Except BandError (List UInt8)) → Option BandError
  | .ok _ :: more => firstRefusal more
  | .error e :: _ => some e
  | [] => none

/-- The refusal if there is one, and the number of bytes if not. -/
def answer (encoded : List (Except BandError (List UInt8))) : Except BandError Nat :=
  (firstRefusal encoded).elim (.ok (bytesAhead encoded).length) .error

theorem answer_cons_ok (bytes : List UInt8) (more : List (Except BandError (List UInt8))) :
    answer (.ok bytes :: more) = (answer more).map (bytes.length + ·) := by
  unfold answer
  rw [firstRefusal, bytesAhead, List.length_append]
  cases firstRefusal more <;> rfl

variable {σ : Type} {w : Writer σ} {received : σ → List UInt8} {room : σ → Option Nat}

/-- Whatever the pieces are and wherever bands end, packing comes to writing the
bytes ahead of the first refusal and then answering. -/
theorem packBandsTo_leaves (h : w.Fills received room) (codec : BandCodec) (bands : Bands) (bs : List Band) (s : σ) :
    w.Leaves received room s (bytesAhead (encodings codec bands bs)) (answer (encodings codec bands bs))
      (packBandsTo w codec bands bs s) := by
  induction bs generalizing s with
  | nil => exact .nothing (.ok 0)
  | cons b bs ih =>
    rw [encodings, List.map_cons, packBandsTo]
    cases codec.encode b.codec (bands.get b) with
    | error e => exact .nothing (.error e)
    | ok bytes =>
      rw [answer_cons_ok, bytesAhead]
      exact (h.writeAll bytes s).bind fun t _ => (ih t).map (bytes.length + ·)

theorem packBandsTo_pieces (size : List UInt8 → Nat) (codec : BandCodec) (bands : Bands) (bs : List Band) :
    packBandsTo (.pieces size) codec bands bs = packBands codec bands bs := by
  induction bs with
  | nil => rfl
  | cons b bs ih => simp only [packBandsTo, packBands, Writer.writeAll_pieces, ih]

/-- A group without content writes nothing. What a group with content writes are
the bytes that its bands are encoded as in wire order, up to the first that the
codec refuses. If the writer has no room for all of them its fault is the error
and it has received as many as it had room for; else it has received all of them
and the refusal is the error, or their number the answer. A sink that takes
bytes in pieces of any size is one such writer, and for it this is `pack`. Writes
that are interrupted may come before any of these, as often as they like, but not
for ever: packing into a sink that only ever interrupts does not end, and nothing
is said of it. -/
theorem pack_until_full {σ : Type} (w : Writer σ) (codec : BandCodec) (g : Group) :
    (g.hasContent = false → ∀ s, g.packTo w codec s = .ok 0 s) ∧
    (g.hasContent = true → ∀ received room, w.Fills received room → ∀ s most, room s = some most →
      let encoded := encodings codec g.bands (Band.transmitted g.kind)
      let bytes := bytesAhead encoded
      (most < bytes.length → ∃ fault t, g.packTo w codec s = .error (.io fault) t ∧ w.Refuses room fault t ∧
        received t = received s ++ bytes.take most) ∧
      (bytes.length ≤ most → ∃ t, received t = received s ++ bytes ∧
        (∀ e, firstRefusal encoded = some e → g.packTo w codec s = .error e t) ∧
        (firstRefusal encoded = none → g.packTo w codec s = .ok bytes.length t))) ∧
    ∀ size, (Writer.pieces size).Fills (·.received) (·.room) ∧ g.packTo (.pieces size) codec = g.pack codec := by
  refine ⟨?empty, ?content, ?pieces⟩
  case empty =>
    intro hcontent s
    rw [packTo, hcontent]
    rfl
  case content =>
    intro hcontent received room hfills s most hmost encoded bytes
    have hleaves := packBandsTo_leaves hfills codec g.bands (Band.transmitted g.kind) s
    rw [packTo, if_pos hcontent]
    constructor
    · intro hlong
      obtain ⟨fault, t, hr, hrefuses, hreceived, -⟩ := hleaves.cut most hmost hlong
      exact ⟨fault, t, hr, hrefuses, hreceived⟩
    · intro hfits
      have hroom : ∀ n, room s = some n → bytes.length ≤ n := by
        intro n hn
        obtain rfl : most = n := Option.some.inj (hmost.symm.trans hn)
        exact hfits
      obtain ⟨t, hr, hreceived, -⟩ := hleaves.whole hroom
      refine ⟨t, hreceived, fun e he => ?_, fun hnone => ?_⟩
      · rw [hr, answer, he]
        rfl
      · rw [hr, answer, hnone]
        rfl
  case pieces =>
    intro size
    refine ⟨Writer.fills_pieces, ?_⟩
    rw [packTo, pack, packBandsTo_pieces]

/-- A sink with room for three bytes that takes at most two at a time, with a
codec that refuses the tag and with one that refuses nothing, and a sink with
room for four. -/
theorem pack_until_full_three_bytes :
    let g := ((empty .visible .method .default).step (.addMember [⟨"LA;", [("x", .int 42)]⟩]) Pool.empty).2.1
    let capped : BandCodec := ⟨fun c values =>
      (values.find? (50 < ·)).elim (c.encodeList values) (.error <| .valueOutOfRange c ·), Codec.decodeList⟩
    let refusal : BandError := .valueOutOfRange .byte1 73
    (∃ fault t, g.packTo (.pieces fun _ => 1) .direct (.fresh (some 3) .endOfInput) = .error (.io fault) t ∧
      t.received = [1, 0, 1]) ∧
    (∃ fault t, g.packTo (.pieces fun _ => 1) capped (.fresh (some 3) .endOfInput) = .error (.io fault) t ∧
      t.received = [1, 0, 1]) ∧
    ∃ t, g.pack capped (.fresh (some 4) .endOfInput) = .error refusal t ∧ t.received = [1, 0, 1, 0] := by
  intro g capped refusal
  obtain ⟨-, hdirect, -⟩ := pack_until_full (.pieces fun _ => 1) .direct g
  obtain ⟨-, hcapped, hpieces⟩ := pack_until_full (.pieces fun _ => 1) capped g
  have hbytes : bytesAhead (encodings .direct g.bands (Band.transmitted g.kind)) = [1, 0, 1, 0, 73, 0] := by cbv
  have hahead : bytesAhead (encodings capped g.bands (Band.transmitted g.kind)) = [1, 0, 1, 0] := by cbv
  have hrefusal : firstRefusal (encodings capped g.bands (Band.transmitted g.kind)) = some refusal := by cbv
  have hfills := (hpieces fun _ => 1).1
  refine ⟨?direct, ?capped, ?four⟩
  case direct =>
    obtain ⟨hcut, -⟩ := hdirect rfl _ _ hfills (.fresh (some 3) .endOfInput) 3 rfl
    obtain ⟨fault, t, hr, -, hreceived⟩ := hcut (by rw [hbytes]; decide)
    exact ⟨fault, t, hr, hreceived.trans (by rw [hbytes]; rfl)⟩
  case capped =>
    obtain ⟨hcut, -⟩ := hcapped rfl _ _ hfills (.fresh (some 3) .endOfInput) 3 rfl
    obtain ⟨fault, t, hr, -, hreceived⟩ := hcut (by rw [hahead]; decide)
    exact ⟨fault, t, hr, hreceived.trans (by rw [hahead]; rfl)⟩
  case four =>
    obtain ⟨-, hwhole⟩ := hcapped rfl _ _ hfills (.fresh (some 4) .endOfInput) 4 rfl
    obtain ⟨t, hreceived, hr, -⟩ := hwhole (by rw [hahead]; decide)
    rw [(hpieces fun _ => 1).2] at hr
    exact ⟨t, hr refusal hrefusal, hreceived.trans (by rw [hahead]; rfl)⟩

end Group

end AnnotationBands
