import Mathlib.Data.Bool.AllAny
import Wrkrs.FramerFeeds
import Wrkrs.Wire

/-!
# Framing a serialised stream

The framer takes back every list of responses from its bytes, in any cut, and the body
of a last response without framing from the end of the stream.
-/

namespace Wrkrs

set_option autoImplicit false
set_option maxRecDepth 4096

open Text Machine Incremental

variable {build : Build} {parse : ResponseParser} {m : Message}

theorem lineIn_ends {line : Bytes} (h : 13 ∉ line) (e : UInt8) (rest : Bytes) :
    lineIn (line ++ 13 :: e :: rest) = some line.length := by
  have hnone : line.findIdx? (· == 13) = none := by
    rw [List.findIdx?_eq_none_iff]
    intro b hb
    simpa using fun heq : b = 13 => h (heq ▸ hb)
  have hfind : (line ++ 13 :: e :: rest).findIdx? (· == 13) = some line.length := by
    rw [List.findIdx?_append, hnone]
    change (some 0).map (· + line.length) = _
    rw [Option.map_some, Nat.zero_add]
  unfold lineIn
  rw [hfind, Option.bind_some, if_pos]
  simp only [List.length_append, List.length_cons]
  omega

theorem lineIn_line {line : Bytes} (h : 13 ∉ line) (rest : Bytes) :
    lineIn (line ++ crlf ++ rest) = some line.length := by
  rw [List.append_assoc]
  exact lineIn_ends h 10 rest

theorem digits_plain {size : Str} (h : AllDigits 16 size) : 13 ∉ encode size := by
  rw [encode_ascii fun c hc => (toDigit_hex (h c hc)).1]
  intro hcr
  obtain ⟨c, hc, heq⟩ := List.mem_map.mp hcr
  obtain ⟨hlt, _, hne⟩ := toDigit_hex (h c hc)
  have hn : (byte c).toNat = c.toNat := toNat_byte_ascii hlt
  rw [heq] at hn
  exact hne hn.symm

theorem chunkSize_digits {size : Str} (hne : size ≠ []) (h : AllDigits 16 size)
    (hlt : digitsValue 16 0 size < word) :
    chunkSize (encode size) = some (digitsValue 16 0 size) := by
  unfold chunkSize
  rw [fromUtf8Lossy_encode, trim_eq_self fun c hc => (toDigit_hex (h c hc)).2.1]
  exact fromStrRadix_digits (by decide) hne h hlt

theorem decodeSize_line {size : Str} (hne : size ≠ []) (h : AllDigits 16 size)
    (hlt : digitsValue 16 0 size < word) (rest : Bytes) :
    m.decodeSize (encode size ++ crlf ++ rest) =
      .advance (encode size ++ crlf).length
        (m.setState (.chunked (if digitsValue 16 0 size = 0 then .trailers
          else .data (digitsValue 16 0 size)))) [] := by
  unfold Message.decodeSize
  have htake : (encode size ++ crlf ++ rest).take (encode size).length = encode size := by
    rw [List.append_assoc, List.take_left]
  simp only [lineIn_line (digits_plain h), htake, chunkSize_digits hne h hlt]
  rw [List.length_append]
  rfl

theorem steps_chunk (build : Build) (parse : ResponseParser) (hcapture : m.capture = true)
    (hstate : m.state = .chunked .size)
    (chunk : Chunk) (hlen : chunk.data.length ≤ vecMax) (rest : Bytes) :
    Steps (decode build parse) m (chunk.bytes ++ rest) []
      { m with body := m.body ++ chunk.data } rest := by
  have hword : vecMax + 2 < word := by decide
  have hpos : chunk.data.length ≠ 0 := fun h => chunk.nonempty (List.length_eq_zero_iff.mp h)
  have hsize : chunk.size ≠ [] := by
    intro hnil
    have hcounts := chunk.counts
    rw [hnil] at hcounts
    exact hpos hcounts.symm
  have hline : decode build parse m (encode chunk.size ++ crlf ++ (chunk.data ++ crlf ++ rest)) =
      .advance (encode chunk.size ++ crlf).length
        (m.setState (.chunked (.data chunk.data.length))) [] := by
    have hdecode := decodeSize_line (m := m) hsize chunk.digits (by rw [chunk.counts]; omega)
      (chunk.data ++ crlf ++ rest)
    rw [chunk.counts, if_neg hpos] at hdecode
    simp only [decode, hstate]
    exact hdecode
  have hdata : decode build parse (m.setState (.chunked (.data chunk.data.length)))
      (chunk.data ++ crlf ++ rest) =
      .advance (chunk.data ++ crlf).length { m with body := m.body ++ chunk.data } [] := by
    have hadd : build.add chunk.data.length 2 = .ok (chunk.data.length + 2) :=
      build.add_eq (by omega)
    have hlong : ¬ (chunk.data ++ crlf ++ rest).length < chunk.data.length + 2 := by
      simp only [List.length_append, crlf, List.length_cons, List.length_nil]
      omega
    have hfits : ¬ ((m.setState (.chunked (.data chunk.data.length))).capture = true ∧
        word ≤ chunk.data.length + 2) := by omega
    have htake : (chunk.data ++ crlf ++ rest).take chunk.data.length = chunk.data := by
      rw [List.append_assoc, List.take_left]
    change Message.decodeData build _ chunk.data.length _ = _
    simp only [Message.decodeData, hadd, if_neg hlong, if_neg hfits, htake]
    simp [Message.setState, Message.pushBody, hcapture, hstate, crlf]
  have hbytes : chunk.bytes ++ rest =
      encode chunk.size ++ crlf ++ (chunk.data ++ crlf ++ rest) := by
    simp only [Chunk.bytes, List.append_assoc]
  rw [hbytes]
  exact (Steps.over hline).trans (.over hdata)

theorem steps_chunks (build : Build) (parse : ResponseParser) (chunks : List Chunk)
    (hcapture : m.capture = true)
    (hstate : m.state = .chunked .size) (hlen : (chunks.flatMap Chunk.data).length ≤ vecMax)
    (rest : Bytes) :
    Steps (decode build parse) m (chunks.flatMap Chunk.bytes ++ rest) []
      { m with body := m.body ++ chunks.flatMap Chunk.data } rest := by
  induction chunks generalizing m with
  | nil =>
    rw [List.flatMap_nil, List.flatMap_nil, List.append_nil]
    exact .refl _ _
  | cons chunk chunks ih =>
    simp only [List.flatMap_cons, List.length_append, List.append_assoc] at hlen ⊢
    have hfirst := steps_chunk build parse hcapture hstate chunk (by omega)
      (chunks.flatMap Chunk.bytes ++ rest)
    have hrest := ih (m := { m with body := m.body ++ chunk.data }) hcapture hstate (by omega)
    rw [← List.append_assoc m.body]
    exact hfirst.trans hrest

theorem steps_trailers (build : Build) (parse : ResponseParser) (trailers : List Bytes)
    (hstate : m.state = .chunked .trailers)
    (hplain : ∀ line ∈ trailers, line ≠ [] ∧ 13 ∉ line) (rest : Bytes) :
    Steps (decode build parse) m (trailers.flatMap (· ++ crlf) ++ crlf ++ rest) [m.response]
      m.finished rest := by
  induction trailers with
  | nil =>
    have hline : lineIn (crlf ++ rest) = some 0 := lineIn_line (List.not_mem_nil : 13 ∉ ([] : Bytes)) rest
    have hdecode : decode build parse m (crlf ++ rest) =
        .advance crlf.length m.finished [m.response] := by
      simp only [decode, hstate, Message.decodeTrailers, hline, if_true]
      rfl
    exact .over hdecode
  | cons line trailers ih =>
    obtain ⟨hne, hcr⟩ := hplain line List.mem_cons_self
    have hrest := ih fun l hl => hplain l (List.mem_cons_of_mem line hl)
    have hlen : line.length ≠ 0 := fun h => hne (List.length_eq_zero_iff.mp h)
    have hdecode : ∀ tail, decode build parse m (line ++ crlf ++ tail) =
        .advance (line ++ crlf).length m [] := by
      intro tail
      simp only [decode, hstate, Message.decodeTrailers, lineIn_line hcr, if_neg hlen]
      rw [List.length_append]
      rfl
    have hbytes : (line :: trailers).flatMap (· ++ crlf) ++ crlf ++ rest =
        line ++ crlf ++ (trailers.flatMap (· ++ crlf) ++ crlf ++ rest) := by
      simp only [List.flatMap_cons, List.append_assoc]
    rw [hbytes]
    exact (Steps.over (hdecode _)).trans hrest

theorem parseHead_bytes (reads : parse.ReadsHeads) (head : WireHead) (rest : Bytes) :
    parseHead parse (head.bytes ++ rest) = .complete head.bytes.length head.read := by
  unfold parseHead
  rw [reads head 16 rest, reads head 64 rest]
  by_cases hfew : head.headers.length ≤ 16
  · simp only [if_pos hfew]
  · simp only [if_neg hfew, if_pos head.few]

structure Between (m : Message) : Prop where
  state : m.state = .headers
  capture : m.capture = true
  body : m.body = []

theorem readHead_read (hm : Between m) (head : WireHead) :
    m.readHead head.read = ⟨.headers, true, head.status, head.keepAlive,
      head.headers.map WireHeader.pair, []⟩ := by
  have hheaders : head.fields.map (fun header => (header.name, fromUtf8Lossy header.value)) =
      head.headers.map WireHeader.pair := by
    rw [WireHead.fields, List.map_map]
    apply List.map_congr_left
    intro header _
    exact Prod.ext rfl (fromUtf8Lossy_encode header.value)
  unfold Message.readHead
  rw [if_pos hm.capture, ← hheaders, hm.body.symm, hm.state.symm, hm.capture.symm]
  rfl

theorem decode_bytes (build : Build) (reads : parse.ReadsHeads) (hm : Between m)
    (head : WireHead) (rest : Bytes) :
    decode build parse m (head.bytes ++ rest) =
      .advance head.bytes.length ((m.readHead head.read).chooseFraming head.fields).2
        ((m.readHead head.read).chooseFraming head.fields).1.toList := by
  simp only [decode, hm.state, Message.decodeHead, parseHead_bytes reads]
  rfl

theorem framers_unique {head : WireHead} (hone : head.framers.length ≤ 1) {a b : WireHeader}
    (ha : a ∈ head.headers) (hb : b ∈ head.headers)
    (hfa : namesLength a.name || namesCoding a.name)
    (hfb : namesLength b.name || namesCoding b.name) : a = b := by
  have hma : a ∈ head.framers := List.mem_filter.mpr ⟨ha, hfa⟩
  have hmb : b ∈ head.framers := List.mem_filter.mpr ⟨hb, hfb⟩
  cases hframers : head.framers with
  | nil =>
    rw [hframers] at hma
    cases hma
  | cons c cs =>
    rw [hframers] at hone hma hmb
    obtain rfl : cs = [] := List.length_eq_zero_iff.mp (Nat.le_zero.mp (Nat.le_of_succ_le_succ hone))
    rw [List.mem_singleton.mp hma, List.mem_singleton.mp hmb]

theorem contentLength_fields (head : WireHead) :
    contentLength head.fields =
      (head.headers.find? fun header => namesLength header.name).bind fun header =>
        fromStrRadix 10 word header.value := by
  unfold contentLength WireHead.fields
  rw [List.find?_map]
  change ((head.headers.find? fun header => namesLength header.name).map _).bind _ = _
  cases head.headers.find? fun header => namesLength header.name with
  | none => rfl
  | some header =>
    change (fromUtf8 (encode header.value)).bind (fromStrRadix 10 word) = _
    rw [fromUtf8_encode]
    rfl

theorem isChunked_fields (head : WireHead) :
    isChunked head.fields = head.headers.any fun header =>
      namesCoding header.name && contains (lower header.value) "chunked".toList := by
  unfold isChunked WireHead.fields
  rw [List.any_map]
  congr 1
  funext header
  simp only [Function.comp_apply, WireHeader.field, fromUtf8_encode]
  rfl

theorem namesCoding_of_length {name : Str} (h : namesLength name = true) :
    namesCoding name = false := by
  have hlower : lower name = lower "content-length".toList := by
    simpa [namesLength, eqIgnoreCase] using h
  unfold namesCoding eqIgnoreCase
  rw [hlower]
  decide

theorem contentLength_of_length {head : WireHead} (hone : head.framers.length ≤ 1)
    {header : WireHeader} (hmem : header ∈ head.headers)
    (hname : namesLength header.name = true) :
    contentLength head.fields = fromStrRadix 10 word header.value := by
  rw [contentLength_fields]
  cases hfind : head.headers.find? fun header => namesLength header.name with
  | none => exact absurd hname (List.find?_eq_none.mp hfind header hmem)
  | some found =>
    have hfound : namesLength found.name = true :=
      List.find?_some (p := fun header : WireHeader => namesLength header.name) hfind
    obtain rfl : found = header := framers_unique hone (List.mem_of_find?_eq_some hfind) hmem
      (by rw [hfound]; rfl) (by rw [hname]; rfl)
    rfl

theorem contentLength_of_coding {head : WireHead} (hone : head.framers.length ≤ 1)
    {header : WireHeader} (hmem : header ∈ head.headers)
    (hname : namesCoding header.name = true) : contentLength head.fields = none := by
  rw [contentLength_fields]
  cases hfind : head.headers.find? fun header => namesLength header.name with
  | none => rfl
  | some found =>
    have hfound : namesLength found.name = true :=
      List.find?_some (p := fun header : WireHeader => namesLength header.name) hfind
    obtain rfl : found = header := framers_unique hone (List.mem_of_find?_eq_some hfind) hmem
      (by rw [hfound]; rfl) (by rw [hname, Bool.or_true])
    rw [namesCoding_of_length hfound] at hname
    cases hname

theorem unframed_fields {head : WireHead} (h : head.framers = []) :
    contentLength head.fields = none ∧ isChunked head.fields = false := by
  have hnone : ∀ header ∈ head.headers,
      namesLength header.name = false ∧ namesCoding header.name = false := by
    intro header hmem
    simpa using List.filter_eq_nil_iff.mp h header hmem
  constructor
  · have hfind : head.headers.find? (fun header => namesLength header.name) = none := by
      rw [List.find?_eq_none]
      intro header hmem
      simp [(hnone header hmem).1]
    rw [contentLength_fields, hfind]
    rfl
  · rw [isChunked_fields, List.any_eq_false]
    intro header hmem
    simp [(hnone header hmem).2]

theorem steps_length (hcapture : m.capture = true) (hbody : m.body = []) {body : Bytes}
    (hstate : m.state = .body body.length) (rest : Bytes) :
    Steps (decode build parse) m (body ++ rest) [{ m.response with body := body }] m.finished
      rest := by
  have hlong : ¬ (body ++ rest).length < body.length := by
    rw [List.length_append]
    omega
  have hpush : m.pushBody body = { m with body := body } := by
    simp only [Message.pushBody, if_pos hcapture, hbody, List.nil_append]
  have hdecode : decode build parse m (body ++ rest) =
      .advance body.length m.finished [{ m.response with body := body }] := by
    simp only [decode, hstate, Message.decodeBody, if_neg hlong, List.take_left, hpush]
    rfl
  exact .over hdecode

theorem steps_chunked (build : Build) (parse : ResponseParser) (hcapture : m.capture = true)
    (hbody : m.body = [])
    (hstate : m.state = .chunked .size) {chunks : List Chunk} {zero : Str} {trailers : List Bytes}
    (hlen : (chunks.flatMap Chunk.data).length ≤ vecMax) (hne : zero ≠ [])
    (hdigits : AllDigits 16 zero) (hzero : digitsValue 16 0 zero = 0)
    (hplain : ∀ line ∈ trailers, line ≠ [] ∧ 13 ∉ line) (rest : Bytes) :
    Steps (decode build parse) m ((Framing.chunked chunks zero trailers).bytes ++ rest)
      [{ m.response with body := chunks.flatMap Chunk.data }] m.finished rest := by
  have hchunks := steps_chunks build parse chunks hcapture hstate hlen
    (encode zero ++ crlf ++ (trailers.flatMap (· ++ crlf) ++ crlf ++ rest))
  rw [hbody, List.nil_append] at hchunks
  have hlast : ∀ {t : Message}, t.state = .chunked .size → ∀ tail,
      decode build parse t (encode zero ++ crlf ++ tail) =
        .advance (encode zero ++ crlf).length (t.setState (.chunked .trailers)) [] := by
    intro t ht tail
    have hdecode := decodeSize_line (m := t) hne hdigits (by rw [hzero]; decide) tail
    rw [if_pos hzero] at hdecode
    simp only [decode, ht]
    exact hdecode
  have htrailers := steps_trailers build parse
    (m := { m with body := chunks.flatMap Chunk.data, state := .chunked .trailers })
    trailers rfl hplain rest
  have hbytes : (Framing.chunked chunks zero trailers).bytes ++ rest =
      chunks.flatMap Chunk.bytes ++
        (encode zero ++ crlf ++ (trailers.flatMap (· ++ crlf) ++ crlf ++ rest)) := by
    simp only [Framing.bytes, List.append_assoc]
  rw [hbytes]
  have hlast' := hlast (t := { m with body := chunks.flatMap Chunk.data }) hstate
    (trailers.flatMap (· ++ crlf) ++ crlf ++ rest)
  exact hchunks.trans ((Steps.over hlast').trans htrailers)

/-- One serialised response is framed as itself, whatever follows. -/
theorem steps_response (build : Build) (reads : parse.ReadsHeads) (hm : Between m) (r : WireResponse)
    (rest : Bytes) :
    ∃ t, Between t ∧ Steps (decode build parse) m (r.bytes ++ rest) [r.response] t rest := by
  obtain ⟨head, framing, hannounced, hone, hvector⟩ := r
  have hhead := decode_bytes build reads hm head (framing.bytes ++ rest)
  rw [readHead_read hm] at hhead
  unfold WireResponse.bytes WireResponse.response
  rw [List.append_assoc]
  cases hannounced with
  | bodiless hstatus =>
    simp only [Message.chooseFraming, hstatus, if_true] at hhead
    exact ⟨_, ⟨rfl, rfl, rfl⟩, .over hhead⟩
  | @length header body hstatus hmem hname hne hdigits hvalue =>
    have hlt : digitsValue 10 0 header.value < word := by
      rw [hvalue]
      exact Nat.lt_of_le_of_lt hvector (by decide)
    have hlength : contentLength head.fields = some body.length := by
      rw [contentLength_of_length hone hmem hname, fromStrRadix_digits (by decide) hne hdigits hlt,
        hvalue]
    simp only [Message.chooseFraming, hstatus, hlength, if_neg Bool.false_ne_true] at hhead
    refine ⟨_, ?_, (Steps.over hhead).trans (steps_length rfl rfl rfl rest)⟩
    exact ⟨rfl, rfl, rfl⟩
  | @chunked header chunks zero trailers hstatus hmem hname hcoding hne hdigits hzero hplain =>
    have hlength := contentLength_of_coding hone hmem hname
    have hchunked : isChunked head.fields = true := by
      rw [isChunked_fields, List.any_eq_true]
      exact ⟨header, hmem, by rw [hname, hcoding]; rfl⟩
    simp only [Message.chooseFraming, hstatus, hlength, hchunked, if_neg Bool.false_ne_true,
      if_true] at hhead
    have hbody := steps_chunked build parse
      (m := ⟨.chunked .size, true, head.status, head.keepAlive, head.headers.map WireHeader.pair, []⟩)
      rfl rfl rfl hvector hne hdigits hzero hplain rest
    exact ⟨_, ⟨rfl, rfl, rfl⟩, (Steps.over hhead).trans hbody⟩

theorem steps_responses (build : Build) (reads : parse.ReadsHeads) (hm : Between m)
    (responses : List WireResponse)
    (rest : Bytes) :
    ∃ t, Between t ∧ Steps (decode build parse) m (responses.flatMap WireResponse.bytes ++ rest)
      (responses.map WireResponse.response) t rest := by
  induction responses generalizing m with
  | nil => exact ⟨m, hm, .refl _ _⟩
  | cons r responses ih =>
    obtain ⟨t, ht, hfirst⟩ := steps_response build reads hm r
      (responses.flatMap WireResponse.bytes ++ rest)
    obtain ⟨u, hu, hrest⟩ := ih ht
    refine ⟨u, hu, ?_⟩
    rw [List.flatMap_cons, List.append_assoc]
    exact hfirst.trans hrest

theorem steps_last (build : Build) (reads : parse.ReadsHeads) (hm : Between m) (last : LastResponse) :
    Steps (decode build parse) m last.bytes []
      ⟨.untilClose, true, last.head.status, false, last.head.headers.map WireHeader.pair, []⟩
      last.body := by
  have hhead := decode_bytes build reads hm last.head last.body
  obtain ⟨hlength, hchunked⟩ := unframed_fields last.unframed
  rw [readHead_read hm] at hhead
  simp only [Message.chooseFraming, last.bodied, hlength, hchunked, if_neg Bool.false_ne_true]
    at hhead
  exact .over hhead

namespace ResponseFramer

/-- Whatever the cut, the framer returns the serialised responses and has used every byte;
the body of a last response without framing comes with the end of the stream. -/
theorem frames_stream (parse : ResponseParser) (laws : parse.Lawful) (reads : parse.ReadsHeads)
    (build : Build) (responses : List WireResponse) :
    (∀ pieces : List Bytes, pieces.flatten = responses.flatMap WireResponse.bytes →
      (new true).feedCalls build parse pieces ≠ .error .capacity →
      ∃ (batches : List (List Response)) (f : ResponseFramer),
        (new true).feedCalls build parse pieces = .ok (batches.map .ok, f) ∧
        batches.flatten = responses.map WireResponse.response ∧
        f.state = .headers ∧ f.scanned = f.buf.length) ∧
    ∀ (last : LastResponse) (pieces : List Bytes),
      pieces.flatten = responses.flatMap WireResponse.bytes ++ last.bytes →
      (new true).feedCalls build parse pieces ≠ .error .capacity →
      ∃ (batches : List (List Response)) (f g : ResponseFramer),
        (new true).feedCalls build parse pieces = .ok (batches.map .ok, f) ∧
        batches.flatten = responses.map WireResponse.response ∧
        f.closed = .ok (.ok [last.response], g) := by
  have hnew := new_ready laws build true
  have hbetween : Between (new true).toMessage := ⟨rfl, rfl, rfl⟩
  have hstable := decode_stable laws build
  constructor
  · intro pieces hcut hroom
    obtain ⟨t, ht, hsteps⟩ := steps_responses build reads hbetween responses []
    have hwait : decode build parse t [] = .wait := by
      simp only [decode, ht.state, Message.decodeHead, parseHead_empty laws]
    rw [List.append_nil, ← hcut] at hsteps
    have hrun : Drains (decode build parse) (new true).toMessage ([] ++ pieces.flatten)
        (responses.map WireResponse.response) t [] := ⟨hsteps, hwait⟩
    have hfeeds := hrun.feeds hstable hnew.waits
    obtain ⟨batches, f, hcalls, hflat, hready, rfl, hrest⟩ :=
      feedCalls_of_feeds laws hnew hroom hfeeds
    refine ⟨batches, f, hcalls, hflat, ht.state, ?_⟩
    have hlen := f.length_rest
    have hle := hready.fits.scanned
    rw [hrest, List.length_nil] at hlen
    omega
  · intro last pieces hcut hroom
    obtain ⟨t, ht, hsteps⟩ := steps_responses build reads hbetween responses last.bytes
    have hall := hsteps.trans (steps_last build reads ht last)
    rw [List.append_nil, ← hcut] at hall
    have hrun : Drains (decode build parse) (new true).toMessage ([] ++ pieces.flatten) _ _ _ :=
      ⟨hall, rfl⟩
    have hfeeds := hrun.feeds hstable hnew.waits
    obtain ⟨batches, f, hcalls, hflat, hready, hmessage, hrest⟩ :=
      feedCalls_of_feeds laws hnew hroom hfeeds
    have hclosed := closed_eq hready.fits
    rw [hmessage, hrest] at hclosed
    exact ⟨batches, f, _, hcalls, hflat, hclosed⟩

def sampleCoding : WireHeader where
  name := "Transfer-Encoding".toList
  value := "Chunked".toList
  named := by decide
  token := List.all_iff_forall_prop.mp rfl
  printable := by decide
  trimmed := by decide

def sampleHead (headers : List WireHeader) (few : headers.length ≤ 64) : WireHead where
  minor := 1
  status := 200
  reason := ascii "OK"
  headers := headers
  minor_le := by decide
  status_le := by decide
  printable := by decide
  few := few

def sampleChunked : WireResponse where
  head := sampleHead [sampleCoding] (by decide)
  framing := .chunked [⟨"02".toList, [13, 10], List.all_iff_forall_prop.mp rfl, rfl, by decide⟩]
    "0".toList [ascii "Expires: 0"]
  announced := .chunked rfl (List.mem_singleton_self _) rfl rfl (by decide)
    (List.all_iff_forall_prop.mp rfl) rfl (by decide)
  one := by decide
  vector := by decide

def sampleLast : LastResponse where
  head := sampleHead [] (by decide)
  body := ascii "HTTP/1.1 200 OK\r\n\r\n"
  bodied := by decide
  unframed := by decide

theorem frames_stream_sample :
    (∃ (batches : List (List Response)) (f : ResponseFramer),
      (new true).feedCalls .release reference [sampleChunked.bytes ++ sampleChunked.bytes] =
        .ok (batches.map .ok, f) ∧
      batches.flatten = [sampleChunked.response, sampleChunked.response] ∧
      f.state = .headers ∧ f.scanned = f.buf.length) ∧
    ∃ (batches : List (List Response)) (f g : ResponseFramer),
      (new true).feedCalls .release reference [sampleChunked.bytes, sampleLast.bytes] =
        .ok (batches.map .ok, f) ∧
      batches.flatten = [sampleChunked.response] ∧
      f.closed = .ok (.ok [sampleLast.response], g) :=
  ⟨(frames_stream reference reference_lawful reference_reads .release
      [sampleChunked, sampleChunked]).1 _ (by rfl) (fun h => by cases h),
    (frames_stream reference reference_lawful reference_reads .release [sampleChunked]).2
      sampleLast _ (by rfl) (fun h => by cases h)⟩

end ResponseFramer

end Wrkrs
