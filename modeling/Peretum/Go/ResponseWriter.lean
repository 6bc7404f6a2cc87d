import Peretum.Go.Header

/-!
# Response writers

The part of `http.ResponseWriter` a handler can observe: a header map that may be
changed until the response is committed, the status and headers that were
committed, and the body written so far. The connection is assumed to accept every
write; `net/http` itself refuses bytes that the committed response must not have.
-/

namespace Go

/-- An HTTP response under construction. -/
structure ResponseWriter where
  /-- The map `w.Header()` returns. -/
  header : Header
  /-- The status and the headers that are committed. -/
  sent : Option (Nat × Header)
  /-- The bytes of the body that were taken. -/
  body : Str
  /-- The writer is the one of a TCP connection, which sends files past `Write`; wrappers of it
  do not. -/
  direct : Bool

/-- Why `Write` refuses bytes. -/
inductive WriteError where
  /-- `ErrBodyNotAllowed`: responses with the status have no body. -/
  | bodyNotAllowed
  /-- `ErrContentLength`: the body would get longer than declared. -/
  | contentLength
  deriving DecidableEq

/-- `bodyAllowedForStatus`. -/
def bodyAllowedForStatus (status : Nat) : Bool :=
  !(decide (100 ≤ status ∧ status ≤ 199) || status == 204 || status == 304)

/-- The name of the header that declares the length of a body. -/
def contentLength : Str := str "Content-Length"

/-- The length `WriteHeader` takes from the headers, if it is a number. -/
def declaredLength (h : Header) : Option Nat := (atoi (h.get contentLength)).bind Int.toNat?

theorem declaredLength_eq_some_iff {h : Header} {n : Nat} :
    declaredLength h = some n ↔ atoi (h.get contentLength) = some (n : Int) := by
  unfold declaredLength
  rcases atoi (h.get contentLength) with _ | (m | m)
  · simp
  · simp only [Option.bind_some, Int.toNat?, Int.ofNat_eq_natCast, Option.some.injEq]
    omega
  · simp [Int.toNat?]

/-- The headers `WriteHeader` commits: a length that is not a number is deleted. -/
def Header.lengthChecked (h : Header) : Header :=
  if h.get contentLength = [] ∨ (declaredLength h).isSome then h else h.del contentLength

/-- What speaks against a body of `size` bytes. -/
def refusal (status : Nat) (h : Header) (size : Nat) : Option WriteError :=
  if !bodyAllowedForStatus status then some .bodyNotAllowed
  else if (declaredLength h).any (· < size) then some .contentLength
  else none

theorem refusal_eq_none_iff {status : Nat} {h : Header} {size : Nat} :
    refusal status h size = none ↔
      bodyAllowedForStatus status = true ∧ ∀ n, declaredLength h = some n → size ≤ n := by
  unfold refusal
  cases bodyAllowedForStatus status <;> cases declaredLength h <;> simp

namespace ResponseWriter

/-- A response nothing has been written to. -/
def fresh : ResponseWriter := ⟨∅, none, [], false⟩

/-- `w.WriteHeader` with a valid code: the first final status commits the
headers, an informational one commits nothing. -/
def writeHeader (w : ResponseWriter) (code : Nat) : ResponseWriter :=
  if w.sent.isSome ∨ (100 ≤ code ∧ code ≤ 199 ∧ code ≠ 101) then w
  else { w with sent := some (code, w.header) }

/-- `w.Write` of bytes that are taken: an uncommitted response is committed with status 200
first. -/
def accept (w : ResponseWriter) (data : Str) : ResponseWriter :=
  { w.writeHeader 200 with body := w.body ++ data }

/-- `io.Copy` of a file that is taken: an empty file causes no write. -/
def acceptFrom (w : ResponseWriter) (data : Str) : ResponseWriter :=
  if data = [] then w else w.accept data

/-- The status and the headers a body is sent under. -/
def response (w : ResponseWriter) : Nat × Header := w.sent.getD (200, w.header)

/-- Why `w.Write` refuses bytes, if it does. -/
def refuses (w : ResponseWriter) (data : Str) : Option WriteError :=
  if data = [] then none
  else refusal w.response.1 w.response.2 (w.body.length + data.length)

/-- `w.Write`: what is refused leaves a response that is committed. -/
def write (w : ResponseWriter) (data : Str) : Option WriteError × ResponseWriter :=
  match w.refuses data with
  | some e => (some e, w.writeHeader 200)
  | none => (none, w.accept data)

/-- The loop of `io.Copy`: pieces of 32 KiB, up to the first that is refused. -/
def copyPieces : Nat → ResponseWriter → Str → Option WriteError × ResponseWriter
  | 0, w, _ => (none, w)
  | fuel + 1, w, data =>
      if data = [] then (none, w)
      else
        match w.write (data.take 32768) with
        | (some e, w) => (some e, w)
        | (none, w) => copyPieces fuel w (data.drop 32768)

/-- `io.Copy` of a file into the writer. -/
def copyFrom (w : ResponseWriter) (data : Str) : Option WriteError × ResponseWriter :=
  if w.direct then
    -- `ReadFrom` passes 512 bytes through `Write`; the connection gets the rest unchecked.
    match copyPieces data.length w (data.take 512) with
    | (some e, w) => (some e, w)
    | (none, w) => (none, w.acceptFrom (data.drop 512))
  else copyPieces data.length w data

/-- The bytes of a file that `io.Copy` passes through `Write`. -/
def checked (w : ResponseWriter) (data : Str) : Str := if w.direct then data.take 512 else data

/-- The first final status commits the headers as they are. -/
theorem sent_writeHeader {w : ResponseWriter} (hnew : w.sent = none) {code : Nat}
    (hcode : 200 ≤ code) : (w.writeHeader code).sent = some (code, w.header) := by
  unfold writeHeader
  rw [if_neg]
  simp only [hnew, Option.isSome_none, Bool.false_eq_true, false_or]
  omega

/-- A committed response ignores every further status. -/
theorem writeHeader_of_sent {w : ResponseWriter} {response : Nat × Header}
    (hsent : w.sent = some response) (code : Nat) : w.writeHeader code = w :=
  if_pos (.inl (by rw [hsent, Option.isSome_some]))

/-- `Write` commits an uncommitted response with status 200. -/
theorem accept_eq (w : ResponseWriter) (data : Str) :
    w.accept data = { w with sent := some w.response, body := w.body ++ data } := by
  cases hsent : w.sent with
  | none => simp [accept, writeHeader, response, hsent]
  | some sent => simp [accept, writeHeader_of_sent hsent, response, hsent]

/-- A write that is refused has committed the response like one of no bytes. -/
theorem writeHeader_ok (w : ResponseWriter) : w.writeHeader 200 = w.accept [] := by
  rw [accept, List.append_nil]
  unfold writeHeader
  split <;> rfl

theorem accept_accept (w : ResponseWriter) (data data' : Str) :
    (w.accept data).accept data' = w.accept (data ++ data') := by
  simp [accept_eq, response, List.append_assoc]

theorem acceptFrom_accept (w : ResponseWriter) (data data' : Str) :
    (w.accept data).acceptFrom data' = w.accept (data ++ data') := by
  unfold acceptFrom
  split
  · next hempty => rw [hempty, List.append_nil]
  · exact accept_accept w data data'

/-- Whatever becomes of a copy, it has added bytes to the response at most. -/
theorem copyPieces_adds (fuel : Nat) (w : ResponseWriter) (data : Str) :
    (copyPieces fuel w data).2 = w ∨ ∃ taken, (copyPieces fuel w data).2 = w.accept taken := by
  induction fuel generalizing w data with
  | zero => exact .inl rfl
  | succ fuel ih =>
    unfold copyPieces
    split
    · exact .inl rfl
    · unfold write
      cases w.refuses (data.take 32768) with
      | some e => exact .inr ⟨[], w.writeHeader_ok⟩
      | none =>
        rcases ih (w.accept (data.take 32768)) (data.drop 32768) with hsame | ⟨taken, htaken⟩
        · exact .inr ⟨_, hsame⟩
        · exact .inr ⟨_, htaken.trans (accept_accept w _ taken)⟩

theorem copyFrom_adds (w : ResponseWriter) (data : Str) :
    (w.copyFrom data).2 = w ∨ ∃ taken, (w.copyFrom data).2 = w.accept taken := by
  unfold copyFrom
  split
  · have hadds := copyPieces_adds data.length w (data.take 512)
    rcases hpieces : copyPieces data.length w (data.take 512) with ⟨_ | e, w'⟩
    · rw [hpieces] at hadds
      change w'.acceptFrom (data.drop 512) = w ∨ ∃ taken, w'.acceptFrom _ = w.accept taken
      rcases hadds with rfl | ⟨taken, rfl⟩
      · by_cases hrest : data.drop 512 = []
        · exact .inl (if_pos hrest)
        · exact .inr ⟨_, if_neg hrest⟩
      · exact .inr ⟨_, acceptFrom_accept w taken _⟩
    · rw [hpieces] at hadds
      exact hadds
  · exact copyPieces_adds data.length w data

/-- A copy leaves the header map alone. -/
theorem header_copyFrom (w : ResponseWriter) (data : Str) :
    (w.copyFrom data).2.header = w.header := by
  rcases w.copyFrom_adds data with hsame | ⟨taken, htaken⟩
  · rw [hsame]
  · rw [htaken, accept_eq]

/-- Nothing written afterwards changes what is committed. -/
theorem sent_copyFrom {w : ResponseWriter} {response : Nat × Header}
    (hsent : w.sent = some response) (data : Str) :
    (w.copyFrom data).2.sent = some response := by
  rcases w.copyFrom_adds data with hsame | ⟨taken, htaken⟩
  · rw [hsame, hsent]
  · rw [htaken, accept_eq, ResponseWriter.response, hsent, Option.getD_some]

/-- After a write the response is committed. -/
theorem sent_write (w : ResponseWriter) (data : Str) :
    (w.write data).2.sent = some w.response := by
  unfold write
  split
  · rw [writeHeader_ok, accept_eq]
  · rw [accept_eq]

theorem sent_acceptFrom {w : ResponseWriter} {response : Nat × Header}
    (hsent : w.sent = some response) (data : Str) : (w.acceptFrom data).sent = some response := by
  unfold acceptFrom
  split
  · exact hsent
  · rw [accept_eq, ResponseWriter.response, hsent, Option.getD_some]

theorem refuses_nil (w : ResponseWriter) : w.refuses [] = none := if_pos rfl

theorem refuses_of_ne_nil {w : ResponseWriter} {data : Str} (hdata : data ≠ []) :
    w.refuses data = refusal w.response.1 w.response.2 (w.body.length + data.length) := if_neg hdata

/-- A piece that is refused stands for the whole: what speaks against some bytes speaks against
more. -/
theorem refusal_mono {status : Nat} {h : Header} {size size' : Nat} (hle : size ≤ size')
    {e : WriteError} (hrefused : refusal status h size = some e) :
    refusal status h size' = some e := by
  cases hallowed : bodyAllowedForStatus status with
  | false => simpa [refusal, hallowed] using hrefused
  | true =>
    cases hlength : declaredLength h with
    | none => simp [refusal, hallowed, hlength] at hrefused
    | some n =>
      by_cases hlt : n < size
      · have hlt' : n < size' := by omega
        simpa [refusal, hallowed, hlength, hlt, hlt'] using hrefused
      · simp [refusal, hallowed, hlength, hlt] at hrefused

/-- The pieces of a file are refused together: the loop ends as one `Write` of all would. -/
theorem copyPieces_eq {fuel : Nat} {w : ResponseWriter} {data : Str} (hfuel : data.length ≤ fuel) :
    (copyPieces fuel w data).1 = w.refuses data ∧
      (w.refuses data = none → (copyPieces fuel w data).2 = w.acceptFrom data) := by
  induction fuel generalizing w data with
  | zero =>
    obtain rfl := List.length_eq_zero_iff.mp (Nat.le_zero.mp hfuel)
    exact ⟨rfl, fun _ => rfl⟩
  | succ fuel ih =>
    by_cases hdata : data = []
    · rw [hdata]
      exact ⟨rfl, fun _ => rfl⟩
    · have hpiece : data.take 32768 ≠ [] := by
        simpa using hdata
      have hall : data.take 32768 ++ data.drop 32768 = data := List.take_append_drop _ _
      have hlength : data.length = (data.take 32768).length + (data.drop 32768).length := by
        rw [← List.length_append, hall]
      rw [copyPieces, if_neg hdata, write, refuses_of_ne_nil hdata]
      cases hrefuses : w.refuses (data.take 32768) with
      | some e =>
        rw [refuses_of_ne_nil hpiece] at hrefuses
        rw [refusal_mono (by omega) hrefuses]
        exact ⟨rfl, fun hnone => by cases hnone⟩
      | none =>
        have hrest : (w.accept (data.take 32768)).refuses (data.drop 32768) =
            refusal w.response.1 w.response.2 (w.body.length + data.length) := by
          by_cases hnil : data.drop 32768 = []
          · rw [hnil, refuses_nil, ← hall, hnil, List.append_nil, ← refuses_of_ne_nil hpiece,
              hrefuses]
          · rw [refuses_of_ne_nil hnil, accept_eq]
            simp only [response, Option.getD_some, List.length_append, Nat.add_assoc, ← hlength]
        have hpos : 0 < (data.take 32768).length := List.length_pos_iff.mpr hpiece
        obtain ⟨herror, hwriter⟩ := @ih (w.accept (data.take 32768)) (data.drop 32768) (by omega)
        refine ⟨herror.trans hrest, fun hnone => (hwriter (hrest.trans hnone)).trans ?_⟩
        rw [acceptFrom_accept, hall, acceptFrom, if_neg hdata]

/-- A copy is refused if the bytes of the file that `Write` sees are, and else taken whole. -/
theorem copyFrom_eq (w : ResponseWriter) (data : Str) :
    (w.copyFrom data).1 = w.refuses (w.checked data) ∧
      (w.refuses (w.checked data) = none → (w.copyFrom data).2 = w.acceptFrom data) := by
  unfold copyFrom checked
  split
  · obtain ⟨herror, hwriter⟩ := @copyPieces_eq data.length w (data.take 512)
      (by rw [List.length_take]; omega)
    rcases hpieces : copyPieces data.length w (data.take 512) with ⟨_ | e, w'⟩
    · rw [hpieces] at herror hwriter
      refine ⟨herror, fun hnone => ?_⟩
      rw [show w' = w.acceptFrom _ from hwriter hnone]
      change (w.acceptFrom (data.take 512)).acceptFrom (data.drop 512) = w.acceptFrom data
      by_cases hdata : data = []
      · rw [hdata]
        rfl
      · have hpiece : data.take 512 ≠ [] := by
          simpa using hdata
        have hwhole : w.acceptFrom data = w.accept data := if_neg hdata
        rw [show w.acceptFrom (data.take 512) = _ from if_neg hpiece, acceptFrom_accept,
          List.take_append_drop, hwhole]
    · rw [hpieces] at herror
      exact ⟨herror, fun hnone => by rw [← herror] at hnone; cases hnone⟩
  · exact copyPieces_eq le_rfl

end ResponseWriter

/-- A call of a handler. -/
inductive WriterCall where
  /-- A change of the map `w.Header()` returns. -/
  | header (change : Header → Header)
  /-- `w.WriteHeader`. -/
  | writeHeader (code : Nat)
  /-- `w.Write`. -/
  | write (data : Str)
  /-- `w.Flush`. -/
  | flush

/-- The code of a final response. -/
def FinalCode (code : Nat) : Prop := code = 101 ∨ 200 ≤ code ∧ code ≤ 999

/-- The code of an informational response. -/
def Informational (code : Nat) : Prop := 100 ≤ code ∧ code ≤ 199 ∧ code ≠ 101

/-- The call is not `WriteHeader` with a code other than that of a final response. -/
def WriterCall.Final : WriterCall → Prop
  | .writeHeader code => FinalCode code
  | _ => True

/-- What a client receives. -/
structure Response where
  status : Nat
  header : Header
  body : Str

namespace ResponseWriter

/-- `w.Flush`: an uncommitted response is committed with status 200 first. -/
def flush (w : ResponseWriter) : ResponseWriter := w.writeHeader 200

/-- A call; `WriteHeader` panics for a code that is not one, unless the response is committed. -/
def call (w : ResponseWriter) : WriterCall → Option ResponseWriter
  | .header change => some { w with header := change w.header }
  | .writeHeader code =>
      if w.sent.isNone ∧ ¬ (100 ≤ code ∧ code ≤ 999) then none else some (w.writeHeader code)
  | .write data => some (w.accept data)
  | .flush => some w.flush

/-- The calls of a handler, one after the other. -/
def calls : ResponseWriter → List WriterCall → Option ResponseWriter
  | w, [] => some w
  | w, c :: cs => (w.call c).bind fun w => w.calls cs

/-- What the client receives when the handler has returned. -/
def finish (w : ResponseWriter) : Response :=
  match w.sent with
  | some (status, header) => ⟨status, header, w.body⟩
  | none => ⟨200, w.header, w.body⟩

theorem writeHeader_final (w : ResponseWriter) {code : Nat} (hcode : FinalCode code) :
    w.writeHeader code = { w with sent := w.sent.or (some (code, w.header)) } := by
  cases hsent : w.sent with
  | none =>
    rw [writeHeader, if_neg]
    · rfl
    · simp only [hsent, Option.isSome_none, Bool.false_eq_true, false_or]
      rcases hcode with rfl | hcode <;> omega
  | some response =>
    rw [writeHeader_of_sent hsent, Option.some_or, ← hsent]

/-- What a final call does. -/
def answered (w : ResponseWriter) : WriterCall → ResponseWriter
  | .header change => { w with header := change w.header }
  | .writeHeader code => { w with sent := w.sent.or (some (code, w.header)) }
  | .write data => { w with sent := w.sent.or (some (200, w.header)), body := w.body ++ data }
  | .flush => { w with sent := w.sent.or (some (200, w.header)) }

theorem call_final (w : ResponseWriter) {c : WriterCall} (hc : c.Final) :
    w.call c = some (w.answered c) := by
  cases c with
  | header change => rfl
  | writeHeader code =>
    have hvalid : ¬ (w.sent.isNone ∧ ¬ (100 ≤ code ∧ code ≤ 999)) := by
      rcases hc with rfl | hc <;> omega
    rw [call, if_neg hvalid, writeHeader_final w hc, answered]
  | write data => rw [call, accept, writeHeader_final w (.inr (by decide)), answered]
  | flush => rw [call, flush, writeHeader_final w (.inr (by decide)), answered]

theorem call_informational (w : ResponseWriter) {code : Nat} (hcode : Informational code) :
    w.call (.writeHeader code) = some w := by
  have hvalid : ¬ (w.sent.isNone ∧ ¬ (100 ≤ code ∧ code ≤ 999)) := by
    obtain ⟨hlower, hupper, -⟩ := hcode
    omega
  rw [call, if_neg hvalid, writeHeader, if_pos (.inr hcode)]

end ResponseWriter

/-- The headers when the handler has made its calls. -/
def headerAfter : Header → List WriterCall → Header
  | h, [] => h
  | h, .header change :: cs => headerAfter (change h) cs
  | h, _ :: cs => headerAfter h cs

/-- The status and the headers at the first call that commits the response. -/
def committed : Header → List WriterCall → Option (Nat × Header)
  | _, [] => none
  | h, .header change :: cs => committed (change h) cs
  | h, .writeHeader code :: _ => some (code, h)
  | h, _ :: _ => some (200, h)

/-- The data and flushes of the calls. -/
def operations : List WriterCall → List (Option Str)
  | [] => []
  | .write data :: cs => some data :: operations cs
  | .flush :: cs => none :: operations cs
  | _ :: cs => operations cs

/-- The body that is written. -/
def written (cs : List WriterCall) : Str := ((operations cs).filterMap id).flatten

theorem ResponseWriter.calls_eq {cs : List WriterCall} (hfinal : ∀ c ∈ cs, c.Final)
    (w : ResponseWriter) :
    w.calls cs = some { w with header := headerAfter w.header cs,
                               sent := w.sent.or (committed w.header cs),
                               body := w.body ++ written cs } := by
  induction cs generalizing w with
  | nil => simp [ResponseWriter.calls, headerAfter, committed, written, operations]
  | cons c cs ih =>
    obtain ⟨hc, hrest⟩ := List.forall_mem_cons.mp hfinal
    rw [ResponseWriter.calls, w.call_final hc, Option.bind_some, ih hrest]
    cases c with
    | header change => rfl
    | writeHeader code =>
      simp [ResponseWriter.answered, headerAfter, committed, written, operations]
    | write data | flush =>
      simp [ResponseWriter.answered, headerAfter, committed, written, operations]

/-- What the client receives from a handler that makes these calls, unless one panics. -/
def serve (h : Header) (cs : List WriterCall) : Option Response :=
  (ResponseWriter.calls { ResponseWriter.fresh with header := h } cs).map ResponseWriter.finish

theorem serve_eq {cs : List WriterCall} (hfinal : ∀ c ∈ cs, c.Final) (h : Header) :
    serve h cs =
      some (ResponseWriter.finish ⟨headerAfter h cs, committed h cs, written cs, false⟩) := by
  rw [serve, ResponseWriter.calls_eq hfinal]
  rfl

end Go
