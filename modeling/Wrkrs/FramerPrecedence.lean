import Wrkrs.FramerChunks

/-!
# Which framing header wins

A head with both framing headers. The framer looks for a length first, so that a chunked
body is delimited by its chunks only where no length is found.
-/

namespace Wrkrs

set_option autoImplicit false
set_option maxRecDepth 4096

open Text Machine Incremental

section Choice
variable {build : Build} {parse : ResponseParser} {m : Message} {headers : List Header}
variable {wire : Bytes} {head : ResponseHead} {n : Nat}

theorem chooseFraming_length (hstatus : bodiless m.status = false)
    (hlength : contentLength headers = some n) :
    m.chooseFraming headers = (none, m.setState (.body n)) := by
  simp only [Message.chooseFraming, hstatus, hlength, if_neg Bool.false_ne_true]
  rfl

theorem chooseFraming_chunked (hstatus : bodiless m.status = false)
    (hlength : contentLength headers = none) (hchunked : isChunked headers = true) :
    m.chooseFraming headers = (none, m.setState (.chunked .size)) := by
  simp only [Message.chooseFraming, hstatus, hlength, hchunked, if_neg Bool.false_ne_true, if_true]
  rfl

theorem decode_head (laws : parse.Lawful) (hstate : m.state = .headers)
    (hhead : parseHead parse wire = .complete wire.length head) (more : Bytes) :
    decode build parse m (wire ++ more) =
      .advance wire.length ((m.readHead head).chooseFraming head.headers).2
        ((m.readHead head).chooseFraming head.headers).1.toList := by
  have happend : parseHead parse (wire ++ more) = .complete wire.length head := by
    rw [parseHead_append laws (by rw [hhead]; simp), hhead]
  simp only [decode, hstate, Message.decodeHead, happend]

end Choice

namespace ResponseFramer

/-- A framer between two messages, with nothing left over. -/
structure Idle (build : Build) (parse : ResponseParser) (f : ResponseFramer) : Prop where
  ready : f.Ready build parse
  state : f.state = .headers
  rest : f.rest = []
  body : f.body = []

/-- Behind the head the framer takes a chunked body for one response, with the data of the
chunks, and looks for the next head at the byte after it. -/
def DelimitsByChunks (build : Build) (parse : ResponseParser) (f : ResponseFramer)
    (wire : Bytes) : Prop :=
  ∀ bytes data : Bytes, ChunkedBody bytes data → PlainCoding bytes →
    (f.load (wire ++ bytes)).buf.length ≤ vecMax →
    ∃ r g, f.feed build parse (wire ++ bytes) = .ok (.ok [r], g) ∧
      g.state = .headers ∧ g.rest = [] ∧ (f.capture = true → r.body = data)

section Precedence
variable {build : Build} {parse : ResponseParser} {f : ResponseFramer} {wire : Bytes}
variable {head : ResponseHead}

theorem delimits_of_unnumbered (laws : parse.Lawful) (hf : f.Idle build parse)
    (hhead : parseHead parse wire = .complete wire.length head)
    (hstatus : bodiless (head.code.getD 0) = false) (hchunked : isChunked head.headers = true)
    (hlength : contentLength head.headers = none) : f.DelimitsByChunks build parse wire := by
  intro bytes data hbody hplain hroom
  have hstep : decode build parse f.toMessage (wire ++ bytes) = _ :=
    decode_head laws hf.state hhead bytes
  rw [chooseFraming_chunked hstatus hlength hchunked] at hstep
  have hopened := Steps.over hstep
  generalize hm : (f.readHead head).setState (.chunked .size) = m at hopened
  have hstart : coded m (some .size, []) = m := by
    rw [← hm]
    exact coded_start rfl
  have hstrict := strict_body hbody [] []
  rw [List.append_nil, List.nil_append] at hstrict
  have hfollow : Steps (decode build parse) (coded m (some .size, [])) bytes
      [(m.pushBody data).response] m.finished [] :=
    steps_coded hstrict rfl (fun n hn => by cases hn) hplain
  rw [hstart] at hfollow
  have hwait : decode build parse m.finished [] = .wait := by
    simp only [decode, Message.finished, Message.decodeHead, parseHead_empty laws]
  have hdrains : Drains (decode build parse) f.toMessage (f.rest ++ (wire ++ bytes))
      [(m.pushBody data).response] m.finished [] := by
    rw [hf.rest]
    exact ⟨hopened.trans hfollow, hwait⟩
  refine ⟨_, _, feed_of_drains laws hf.ready.fits hf.ready.sized hroom hdrains, rfl,
    goto_rest List.nil_suffix, ?_⟩
  intro hcapture
  have hkeeps : m.capture = true := by
    rw [← hm]
    exact hcapture
  have hempty : m.body = [] := by
    rw [← hm]
    exact hf.body
  simp only [Message.response, Message.pushBody, if_pos hkeeps, hempty, List.nil_append]

theorem plainCoding_zero {line : Bytes} (hsize : SizeLine line 0) (hbare : 59 ∉ line) :
    PlainCoding (line ++ crlf ++ crlf) := by
  intro c data rest hsteps
  rcases hsteps.silent_cases with ⟨hstart, rfl⟩ | ⟨n, t, hstep, hrest⟩
  · cases hstart
    intro line' e rest heq hcr
    rw [crlf_append] at heq
    obtain ⟨rfl, rfl⟩ := line_unique hsize.plain hcr heq
    exact .bare rfl hsize hbare (by decide)
  · have hitem := strict_item (.size hsize : Item [] _ _ _ _) crlf
    obtain ⟨rfl, rfl, _⟩ := Attempt.advance.inj (hitem.symm.trans hstep)
    rw [List.drop_left] at hrest
    rcases hrest.silent_cases with ⟨hstart, rfl⟩ | ⟨n, t, hstep, _⟩
    · cases hstart
      intro line' e rest heq hcr
      obtain ⟨rfl, rfl⟩ := line_unique (List.not_mem_nil) hcr heq
      exact ⟨rfl, .inl rfl⟩
    · cases hstep

/-- For every length there is a plain body of another length. -/
theorem zero_body (n : Nat) : ∃ bytes, ChunkedBody bytes [] ∧ PlainCoding bytes ∧
    bytes.length ≤ 6 ∧ bytes.length ≠ n := by
  have hzero : SizeLine (ascii "0") 0 := @SizeLine.bare ['0'] (by decide) (by decide)
  have hzeros : SizeLine (ascii "00") 0 := @SizeLine.bare ['0', '0'] (by decide) (by decide)
  by_cases hn : n = 5
  · subst hn
    exact ⟨_, .last hzeros (List.forall_mem_nil _), plainCoding_zero hzeros (by decide),
      by decide, by decide⟩
  · exact ⟨_, .last hzero (List.forall_mem_nil _), plainCoding_zero hzero (by decide),
      by decide, fun h => hn h.symm⟩

theorem load_append_length (f : ResponseFramer) (xs ys : Bytes) :
    (f.load (xs ++ ys)).buf.length = (f.load xs).buf.length + ys.length := by
  unfold load
  split <;> simp only [List.length_append] <;> omega

theorem not_delimits (laws : parse.Lawful) (hf : f.Idle build parse)
    (hhead : parseHead parse wire = .complete wire.length head)
    (hstatus : bodiless (head.code.getD 0) = false) {n : Nat}
    (hlength : contentLength head.headers = some n)
    (hroom : (f.load wire).buf.length + 6 ≤ vecMax) :
    ¬ f.DelimitsByChunks build parse wire := by
  intro h
  obtain ⟨bytes, hbody, hplain, hshort, hother⟩ := zero_body n
  have hfits : (f.load (wire ++ bytes)).buf.length ≤ vecMax := by
    rw [load_append_length]
    omega
  obtain ⟨r, g, hfeed, hstate, hrest, _⟩ := h bytes [] hbody hplain hfits
  obtain ⟨_, ⟨outs, m, ys, houts, rfl, hd⟩ | ⟨outs, m, ys, error, herror, _, _⟩⟩ :=
    feed_ok laws hf.ready.fits hf.ready.sized hfeed
  · obtain rfl := Except.ok.inj houts
    have hys : ys = [] := by
      rw [goto_rest] at hrest
      · exact hrest
      · rw [load_rest hf.ready.fits]
        exact hd.1.suffix
    subst hys
    rw [hf.rest, List.nil_append] at hd
    have hstep : decode build parse f.toMessage (wire ++ bytes) = _ :=
      decode_head laws hf.state hhead bytes
    rw [chooseFraming_length hstatus hlength] at hstep
    obtain ⟨later, hlater, hbodied⟩ := (Steps.over hstep).goes_on hd.1 (halted_of_wait hd.2)
    obtain rfl : later = [r] := hlater.symm
    by_cases hlen : bytes.length < n
    · have hwait : decode build parse ((f.readHead head).setState (.body n)) bytes = .wait :=
        if_pos hlen
      obtain ⟨hnone, _⟩ := hbodied.eq_of_halted (halted_of_wait hwait)
      cases hnone
    · have htake : decode build parse ((f.readHead head).setState (.body n)) bytes =
          .advance n _ _ := if_neg hlen
      obtain ⟨more, hmore, hafter⟩ := (Steps.single htake).goes_on hbodied (halted_of_wait hd.2)
      obtain rfl : more = [] := (List.cons.inj hmore).2.symm
      obtain ⟨_, hnothing⟩ := steps_silent_to_headers hafter hstate rfl
      have hover := List.drop_eq_nil_iff.mp hnothing.symm
      omega
  · cases herror

/-- A head with a chunked coding is delimited by it exactly if no length is read from it. -/
theorem delimitsByChunks_iff (laws : parse.Lawful) (hf : f.Idle build parse)
    (hhead : parseHead parse wire = .complete wire.length head)
    (hstatus : bodiless (head.code.getD 0) = false) (hchunked : isChunked head.headers = true)
    (hroom : (f.load wire).buf.length + 6 ≤ vecMax) :
    f.DelimitsByChunks build parse wire ↔ contentLength head.headers = none := by
  constructor
  · intro h
    cases hlength : contentLength head.headers with
    | none => rfl
    | some n => exact absurd h (not_delimits laws hf hhead hstatus hlength hroom)
  · exact delimits_of_unnumbered laws hf hhead hstatus hchunked

end Precedence

theorem new_idle {parse : ResponseParser} (laws : parse.Lawful) (build : Build) (capture : Bool) :
    (new capture).Idle build parse := ⟨new_ready laws build capture, rfl, rfl, rfl⟩

/-- The first length is no number, and the second does not count. -/
def unnumberedHead : Bytes :=
  ascii "HTTP/1.1 200 X\r\nCONTENT-LENGTH: 1,1\r\nTransfer-Encoding: chunked\r\n" ++
    ascii "Content-Length: 1\r\n\r\n"

theorem delimitsByChunks_iff_sample :
    (new true).DelimitsByChunks .debug reference unnumberedHead :=
  (delimitsByChunks_iff reference_lawful (new_idle reference_lawful .debug true)
    (by rfl) (by rfl) (by rfl) (by decide)).mpr (by rfl)

def bothHead : Bytes :=
  ascii "HTTP/1.1 200 X\r\nContent-Length: 0\r\nTransfer-Encoding: chunked\r\n\r\n"

/-- A length of zero ends the message at its head, and the zero chunk is read as a head. -/
theorem length_wins :
    ((new true).feed .release reference (bothHead ++ ascii "0\r\n\r\n")).map Prod.fst =
        .ok (.error .badResponse) ∧
      ¬ (new true).DelimitsByChunks .release reference bothHead := by
  constructor
  · rfl
  · exact not_delimits reference_lawful (new_idle reference_lawful .release true) rfl rfl rfl
      (by decide)

end ResponseFramer

end Wrkrs
