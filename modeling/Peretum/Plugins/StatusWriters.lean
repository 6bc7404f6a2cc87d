import Peretum.Go.ResponseWriter
import Peretum.Plugins.ErrorPage
import Peretum.Wrapping

/-!
# Response writers that look at the status

`accessRecorder` remembers the status for the access log, and `errorPageWriter` replaces the
bodies of some statuses by pages. Both take the first `WriteHeader` for the only one. A handler may
announce informational responses before the final one, and these are taken for it.
-/

namespace Peretum.StatusWriters

open Go ErrorPage Wrapping

structure AccessRecorder where
  status : Nat
  bytesW : Nat
  wroteHeader : Bool

namespace AccessRecorder

/-- The writer for a request. -/
def new : AccessRecorder := ⟨0, 0, false⟩

def statusCode (rec : AccessRecorder) : Nat := if rec.status = 0 then 200 else rec.status

def writeHeader (rec : AccessRecorder) (code : Nat) : AccessRecorder × List WriterCall :=
  if rec.wroteHeader then (rec, [])
  else ({ rec with status := code, wroteHeader := true }, [.writeHeader code])

/-- `Write`; the wrapped writer accepts everything. -/
def write (rec : AccessRecorder) (data : Str) : AccessRecorder × List WriterCall :=
  let rec' := if rec.wroteHeader then rec else { rec with status := 200, wroteHeader := true }
  ({ rec' with bytesW := rec'.bytesW + data.length }, [.write data])

end AccessRecorder

/-- The recorder as a wrapper. -/
def accessRecorder : Wrapper AccessRecorder WriterCall where
  step rec
    | .header change => (rec, [.header change])
    | .writeHeader code => rec.writeHeader code
    | .write data => rec.write data
    | .flush => (rec, [.flush])
  finish _ := []

structure ErrorPagePlugin where
  statuses : List Int
  assets : Assets

def defaultStatuses : List Int := [404, 500, 502, 503, 504]

/-- The statuses `Init` leaves for those that are configured. -/
def ErrorPagePlugin.init (assets : Assets) (statuses : List Int) : ErrorPagePlugin :=
  ⟨if statuses = [] then defaultStatuses else statuses, assets⟩

def ErrorPagePlugin.shouldRender (p : ErrorPagePlugin) (code : Nat) : Bool :=
  (code : Int) ∈ p.statuses

structure ErrorPageWriter where
  status : Nat
  wroteHeader : Bool
  /-- Whether the body is replaced by a page. -/
  render : Bool
  /-- Whether the page was written. -/
  done : Bool

variable (p : ErrorPagePlugin) (now : Time) (r : PageRequest)

/-- The headers of a page. -/
def pageHeader (h : Header) : Header :=
  let h := h.set (str "Content-Type") (str "text/html; charset=utf-8")
  let h := h.del (str "Content-Length")
  let h := h.del (str "Content-Encoding")
  let h := h.set (str "X-Request-ID") (requestID r)
  h.set (str "Cache-Control") (str "no-store")

/-- What is written of the page for a status; nothing is for a `HEAD` request. -/
def pageWrites (status : Nat) : List Str :=
  if r.method = str "HEAD" then [] else [renderPage p.assets now status (some r)]

/-- The calls that send the page for a status. -/
def pageCalls (status : Nat) : List WriterCall :=
  .header (pageHeader r) :: .writeHeader status :: (pageWrites p now r status).map .write

namespace ErrorPageWriter

/-- The writer for a request. -/
def new : ErrorPageWriter := ⟨0, false, false, false⟩

def writeHeader (ew : ErrorPageWriter) (code : Nat) : ErrorPageWriter × List WriterCall :=
  if ew.wroteHeader then (ew, [])
  else if p.shouldRender code then
    ({ ew with wroteHeader := true, status := code, render := true }, [])
  else ({ ew with wroteHeader := true, status := code }, [.writeHeader code])

def writePage (ew : ErrorPageWriter) : ErrorPageWriter × List WriterCall :=
  if ew.done then (ew, []) else ({ ew with done := true }, pageCalls p now r ew.status)

/-- `Write`. -/
def write (ew : ErrorPageWriter) (data : Str) : ErrorPageWriter × List WriterCall :=
  let (ew, sent) := if ew.wroteHeader then (ew, []) else ew.writeHeader p 200
  if ew.render then
    let (ew, page) := ew.writePage p now r
    (ew, sent ++ page)
  else (ew, sent ++ [.write data])

def flush (ew : ErrorPageWriter) : ErrorPageWriter × List WriterCall :=
  if ew.render then ew.writePage p now r else (ew, [.flush])

def finish (ew : ErrorPageWriter) : List WriterCall :=
  if !ew.wroteHeader then []
  else if ew.render then (ew.writePage p now r).2
  else []

end ErrorPageWriter

/-- The writer for error pages as a wrapper. -/
def errorPageWriter : Wrapper ErrorPageWriter WriterCall where
  step ew
    | .header change => (ew, [.header change])
    | .writeHeader code => ew.writeHeader p code
    | .write data => ew.write p now r data
    | .flush => ew.flush p now r
  finish ew := ew.finish p now r

/-- The calls of a handler that announces informational responses, then a final one, and writes a
body. -/
structure Answer where
  /-- The codes of the informational responses. -/
  infos : List Nat
  informational : ∀ code ∈ infos, Informational code
  final : Option Nat
  isFinal : ∀ code ∈ final, FinalCode code
  writes : List Str

namespace Answer

/-- The codes passed to `WriteHeader`. -/
def codes (a : Answer) : List Nat := a.infos ++ a.final.toList

def calls (a : Answer) : List WriterCall :=
  a.codes.map .writeHeader ++ a.writes.map .write

/-- The final status. -/
def status (a : Answer) : Nat := a.final.getD 200

theorem head_cases (a : Answer) :
    (∃ code, a.infos ≠ [] ∧ a.infos.head? = some code ∧ a.codes.head? = some code ∧
      Informational code) ∨
    (∃ code, a.infos = [] ∧ a.final = some code ∧ a.codes.head? = some code ∧ FinalCode code) ∨
    (a.infos = [] ∧ a.final = none ∧ a.codes.head? = none) := by
  unfold codes
  cases hinfos : a.infos with
  | cons code infos =>
    exact .inl ⟨code, List.cons_ne_nil _ _, rfl, rfl,
      a.informational code (hinfos ▸ List.mem_cons_self)⟩
  | nil =>
    cases hfinal : a.final with
    | some code => exact .inr (.inl ⟨code, rfl, rfl, rfl, a.isFinal code hfinal⟩)
    | none => exact .inr (.inr ⟨rfl, rfl, rfl⟩)

end Answer

/-- The client receives the final status. -/
def KeepsStatus (h : Header) (a : Answer) (sent : List WriterCall) : Prop :=
  ∃ response, serve h sent = some response ∧ response.status = a.status

/-- The client receives the final status, with the page instead of the body if there is one. -/
def KeepsPage (h : Header) (a : Answer) (sent : List WriterCall) : Prop :=
  ∃ response, serve h sent = some response ∧ response.status = a.status ∧
    (p.shouldRender a.status = true → response.body = (pageWrites p now r a.status).flatten)

/-- What the writer for error pages makes of an answer is kept: a handler that says nothing must not
get a page, and after an informational response the status is 200, with the page for it. -/
def Kept (a : Answer) : Prop :=
  (a.infos = [] → a.final = none → a.writes = [] → p.shouldRender 200 = true →
    (pageWrites p now r 200).flatten = []) ∧
  ∀ code, a.infos.head? = some code → a.status = 200 ∧
    (p.shouldRender 200 = true →
      (if p.shouldRender code then (pageWrites p now r code).flatten else a.writes.flatten) =
        (pageWrites p now r 200).flatten)

section Responses

variable {code : Nat}

/-- The status of a response that begins with a code. -/
def effective (code : Nat) : Nat := if 100 ≤ code ∧ code ≤ 199 ∧ code ≠ 101 then 200 else code

theorem effective_informational (hcode : Informational code) : effective code = 200 := if_pos hcode

theorem effective_final (hcode : FinalCode code) : effective code = code := by
  refine if_neg ?_
  rintro ⟨hlower, hupper, hne⟩
  rcases hcode with rfl | hcode
  · exact hne rfl
  · omega

theorem written_writes (writes : List Str) : written (writes.map .write) = writes.flatten := by
  induction writes with
  | nil => rfl
  | cons data writes ih =>
    have hcons : written (.write data :: writes.map .write) = data ++ written (writes.map .write) :=
      rfl
    rw [List.map_cons, hcons, ih, List.flatten_cons]

theorem final_writes (writes : List Str) : ∀ c ∈ writes.map WriterCall.write, c.Final := by
  intro c hc
  obtain ⟨data, -, rfl⟩ := List.mem_map.mp hc
  trivial

theorem serve_writes (h : Header) (writes : List Str) :
    ∃ response, serve h (writes.map .write) = some response ∧ response.status = 200 ∧
      response.body = writes.flatten := by
  rw [serve_eq (final_writes writes), written_writes]
  cases writes with
  | nil | cons data writes => exact ⟨_, rfl, rfl, rfl⟩

theorem serve_code (hcode : Informational code ∨ FinalCode code) (h : Header)
    (writes : List Str) :
    ∃ response, serve h (.writeHeader code :: writes.map .write) = some response ∧
      response.status = effective code ∧ response.body = writes.flatten := by
  rcases hcode with hinfo | hfinal
  · have hskip : serve h (.writeHeader code :: writes.map .write) =
        serve h (writes.map .write) := by
      rw [serve, ResponseWriter.calls, ResponseWriter.call_informational _ hinfo, Option.bind_some]
      rfl
    rw [hskip, effective_informational hinfo]
    exact serve_writes h writes
  · have hcalls : ∀ c ∈ .writeHeader code :: writes.map WriterCall.write, c.Final :=
      List.forall_mem_cons.mpr ⟨hfinal, final_writes writes⟩
    have hwritten : written (.writeHeader code :: writes.map .write) = writes.flatten :=
      written_writes writes
    rw [serve_eq hcalls, hwritten]
    exact ⟨_, rfl, (effective_final hfinal).symm, rfl⟩

end Responses

section Forwarding

variable (codes : List Nat) (writes : List Str) {p now r}

theorem forwarded_recorder_writes (rec : AccessRecorder) :
    accessRecorder.forwarded rec (writes.map .write) = writes.map .write := by
  induction writes generalizing rec with
  | nil => rfl
  | cons data writes ih =>
    rw [List.map_cons, Wrapper.forwarded_cons, ih]
    rfl

theorem forwarded_recorder :
    accessRecorder.forwarded .new (codes.map .writeHeader ++ writes.map .write) =
      (codes.take 1).map .writeHeader ++ writes.map .write := by
  cases codes with
  | nil => exact forwarded_recorder_writes writes .new
  | cons code codes =>
    have hignored : ∀ c ∈ codes.map WriterCall.writeHeader,
        accessRecorder.step ⟨code, 0, true⟩ c = (⟨code, 0, true⟩, []) := by
      intro c hc
      obtain ⟨code', -, rfl⟩ := List.mem_map.mp hc
      rfl
    have hstep : accessRecorder.step .new (.writeHeader code) =
        (⟨code, 0, true⟩, [.writeHeader code]) := rfl
    rw [List.map_cons, List.cons_append, Wrapper.forwarded_cons, hstep,
      Wrapper.forwarded_ignored hignored, forwarded_recorder_writes]
    rfl

/-- The writer for error pages when it has a status. -/
def opened (p : ErrorPagePlugin) (code : Nat) : ErrorPageWriter :=
  ⟨code, true, p.shouldRender code, false⟩

theorem writeHeader_new (code : Nat) :
    ErrorPageWriter.new.writeHeader p code =
      (opened p code, if p.shouldRender code then [] else [.writeHeader code]) := by
  cases hrender : p.shouldRender code <;>
    simp [ErrorPageWriter.writeHeader, ErrorPageWriter.new, opened, hrender]

/-- A first write gives the status 200, and goes on as if it had been given before. -/
theorem write_new (data : Str) :
    ErrorPageWriter.new.write p now r data =
      (((opened p 200).write p now r data).1,
        (if p.shouldRender 200 then [] else [.writeHeader 200]) ++
          ((opened p 200).write p now r data).2) := by
  have hnew : ErrorPageWriter.new.wroteHeader = false := rfl
  unfold ErrorPageWriter.write
  rw [hnew, if_neg Bool.false_ne_true, writeHeader_new]
  cases hrender : p.shouldRender 200 <;> simp [opened, hrender]

theorem forwarded_done (code : Nat) :
    (errorPageWriter p now r).forwarded ⟨code, true, true, true⟩ (writes.map .write) = [] := by
  have hignored : ∀ c ∈ writes.map WriterCall.write,
      (errorPageWriter p now r).step ⟨code, true, true, true⟩ c =
        (⟨code, true, true, true⟩, []) := by
    intro c hc
    obtain ⟨data, -, rfl⟩ := List.mem_map.mp hc
    rfl
  have hforwarded := Wrapper.forwarded_ignored hignored []
  rwa [List.append_nil] at hforwarded

/-- The writer for error pages either sends one page or passes writes on. -/
theorem forwarded_opened (code : Nat) :
    (errorPageWriter p now r).forwarded (opened p code) (writes.map .write) =
      if p.shouldRender code then pageCalls p now r code else writes.map .write := by
  unfold opened
  cases p.shouldRender code with
  | true =>
    cases writes with
    | nil => rfl
    | cons data writes =>
      have hstep : (errorPageWriter p now r).step ⟨code, true, true, false⟩ (.write data) =
          (⟨code, true, true, true⟩, pageCalls p now r code) := rfl
      rw [List.map_cons, Wrapper.forwarded_cons, hstep, forwarded_done, List.append_nil, if_pos rfl]
  | false =>
    induction writes with
    | nil => rfl
    | cons data writes ih =>
      exact congrArg (.write data :: ·) ih

/-- The first code, which is 200 for a body without one. -/
def firstCode : Option Nat := codes.head?.or (if writes = [] then none else some 200)

/-- What is sent for the first code. -/
def sentFor (p : ErrorPagePlugin) (now : Time) (r : PageRequest) (code : Nat) : List WriterCall :=
  if p.shouldRender code then pageCalls p now r code
  else .writeHeader code :: writes.map .write

theorem forwarded_errorPageWriter :
    (errorPageWriter p now r).forwarded .new (codes.map .writeHeader ++ writes.map .write) =
      (firstCode codes writes).elim [] (sentFor writes p now r) := by
  have hfirst : ∀ code, (if p.shouldRender code then [] else [WriterCall.writeHeader code]) ++
      (if p.shouldRender code then pageCalls p now r code else writes.map .write) =
        sentFor writes p now r code := by
    intro code
    unfold sentFor
    cases p.shouldRender code <;> rfl
  cases codes with
  | cons code codes =>
    have hignored : ∀ c ∈ codes.map WriterCall.writeHeader,
        (errorPageWriter p now r).step (opened p code) c = (opened p code, []) := by
      intro c hc
      obtain ⟨code', -, rfl⟩ := List.mem_map.mp hc
      rfl
    have hstep : (errorPageWriter p now r).step .new (.writeHeader code) =
        (opened p code, if p.shouldRender code then [] else [.writeHeader code]) :=
      writeHeader_new code
    rw [List.map_cons, List.cons_append, Wrapper.forwarded_cons, hstep,
      Wrapper.forwarded_ignored hignored, forwarded_opened]
    exact hfirst code
  | nil =>
    cases writes with
    | nil => rfl
    | cons data rest =>
      have hforwarded : (errorPageWriter p now r).forwarded .new ((data :: rest).map .write) =
          (if p.shouldRender 200 then [] else [WriterCall.writeHeader 200]) ++
            (errorPageWriter p now r).forwarded (opened p 200) ((data :: rest).map .write) := by
        have hstep : (errorPageWriter p now r).step .new (.write data) = _ := write_new data
        rw [List.map_cons, Wrapper.forwarded_cons, hstep, Wrapper.forwarded_cons,
          List.append_assoc]
        rfl
      rw [List.map_nil, List.nil_append, hforwarded, forwarded_opened]
      exact hfirst 200

end Forwarding

section Answers

variable {p now r} {h : Header} {a : Answer} {sent : List WriterCall} {status : Nat} {body : Str}

theorem keepsStatus_iff_of_serve
    (hserve : ∃ response, serve h sent = some response ∧ response.status = status ∧
      response.body = body) : KeepsStatus h a sent ↔ status = a.status := by
  obtain ⟨response, hresponse, rfl, -⟩ := hserve
  simp [KeepsStatus, hresponse]

theorem keepsPage_iff_of_serve
    (hserve : ∃ response, serve h sent = some response ∧ response.status = status ∧
      response.body = body) :
    KeepsPage p now r h a sent ↔ status = a.status ∧
      (p.shouldRender a.status = true → body = (pageWrites p now r a.status).flatten) := by
  obtain ⟨response, hresponse, rfl, rfl⟩ := hserve
  simp [KeepsPage, hresponse]

theorem serve_sentFor {code : Nat} (hcode : Informational code ∨ FinalCode code) (h : Header)
    (writes : List Str) :
    ∃ response, serve h (sentFor writes p now r code) = some response ∧
      response.status = effective code ∧ response.body =
        if p.shouldRender code then (pageWrites p now r code).flatten else writes.flatten := by
  unfold sentFor
  cases p.shouldRender code with
  | true => exact serve_code hcode (pageHeader r h) (pageWrites p now r code)
  | false => exact serve_code hcode h writes

/-- The recorder keeps the final status of an answer without informational responses, and 200. -/
theorem keepsStatus_recorder (h : Header) (a : Answer) :
    KeepsStatus h a (accessRecorder.forwarded .new a.calls) ↔ a.infos = [] ∨ a.status = 200 := by
  rw [Answer.calls, forwarded_recorder, List.take_one]
  rcases a.head_cases with ⟨code, hne, hinfos, hhead, hcode⟩ |
    ⟨code, hinfos, hfinal, hhead, hcode⟩ | ⟨hinfos, hfinal, hhead⟩
  · rw [hhead]
    refine (keepsStatus_iff_of_serve (serve_code (.inl hcode) h a.writes)).trans ?_
    rw [effective_informational hcode, eq_comm]
    exact ⟨.inr, fun hkept => hkept.resolve_left hne⟩
  · rw [hhead]
    refine (keepsStatus_iff_of_serve (serve_code (.inr hcode) h a.writes)).trans ?_
    rw [effective_final hcode, Answer.status, hfinal]
    exact iff_of_true rfl (.inl hinfos)
  · rw [hhead]
    refine (keepsStatus_iff_of_serve (serve_writes h a.writes)).trans ?_
    rw [Answer.status, hfinal]
    exact iff_of_true rfl (.inl hinfos)

theorem keepsPage_errorPageWriter (h : Header) (a : Answer) :
    KeepsPage p now r h a ((errorPageWriter p now r).forwarded .new a.calls) ↔ Kept p now r a := by
  rw [Answer.calls, forwarded_errorPageWriter, firstCode]
  rcases a.head_cases with ⟨code, hne, hinfos, hhead, hcode⟩ |
    ⟨code, hinfos, hfinal, hhead, hcode⟩ | ⟨hinfos, hfinal, hhead⟩
  · rw [hhead]
    refine (keepsPage_iff_of_serve (serve_sentFor (.inl hcode) h a.writes)).trans ?_
    rw [effective_informational hcode, Kept, hinfos]
    constructor
    · rintro ⟨hstatus, hpage⟩
      rw [← hstatus] at hpage ⊢
      exact ⟨fun hnil => absurd hnil hne, fun _ hsome => Option.some.inj hsome ▸ ⟨rfl, hpage⟩⟩
    · rintro ⟨-, hkept⟩
      obtain ⟨hstatus, hpage⟩ := hkept code rfl
      rw [hstatus]
      exact ⟨rfl, hpage⟩
  · rw [hhead]
    refine (keepsPage_iff_of_serve (serve_sentFor (.inr hcode) h a.writes)).trans ?_
    rw [effective_final hcode, Answer.status, hfinal]
    refine iff_of_true ⟨rfl, fun hrender => if_pos hrender⟩ ⟨fun _ hnone => ?_, fun _ hsome => ?_⟩
    · rw [hfinal] at hnone
      cases hnone
    · rw [hinfos] at hsome
      cases hsome
  · have hsecond : ∀ code, a.infos.head? ≠ some code := by
      intro code
      rw [hinfos]
      exact Option.some_ne_none code |>.symm
    rw [hhead, Option.none_or]
    by_cases hwrites : a.writes = []
    · have hserve : ∃ response, serve h [] = some response ∧ response.status = 200 ∧
          response.body = [] := ⟨_, rfl, rfl, rfl⟩
      rw [if_pos hwrites]
      refine (keepsPage_iff_of_serve hserve).trans ?_
      rw [Answer.status, hfinal]
      constructor
      · rintro ⟨-, hpage⟩
        exact ⟨fun _ _ _ hrender => (hpage hrender).symm,
          fun code hcode => absurd hcode (hsecond code)⟩
      · rintro ⟨hpage, -⟩
        exact ⟨rfl, fun hrender => (hpage hinfos hfinal hwrites hrender).symm⟩
    · have hcode : FinalCode 200 := .inr (by decide)
      rw [if_neg hwrites]
      refine (keepsPage_iff_of_serve (serve_sentFor (.inr hcode) h a.writes)).trans ?_
      rw [effective_final hcode, Answer.status, hfinal]
      exact iff_of_true ⟨rfl, fun hrender => if_pos hrender⟩
        ⟨fun _ _ hnil => absurd hnil hwrites, fun code hcode => absurd hcode (hsecond code)⟩

theorem forwarded_stacked (a : Answer) :
    (accessRecorder.stack (errorPageWriter p now r)).forwarded (.new, .new) a.calls =
      (errorPageWriter p now r).forwarded .new a.calls := by
  have hfirst : firstCode (a.codes.take 1) a.writes = firstCode a.codes a.writes := by
    cases a.codes <;> rfl
  rw [Wrapper.forwarded_stack, Answer.calls, forwarded_recorder, forwarded_errorPageWriter,
    forwarded_errorPageWriter, hfirst]

end Answers

/-- The recorder keeps the final status exactly if there is no informational response or the status
is 200. The writer for error pages keeps the status, and sends the page for it, exactly if the
answer is one that is kept, and so do both writers together. -/
theorem status_kept_iff (p : ErrorPagePlugin) (now : Time) (r : PageRequest) (h : Header)
    (a : Answer) :
    (KeepsStatus h a (accessRecorder.forwarded .new a.calls) ↔ a.infos = [] ∨ a.status = 200) ∧
    (KeepsPage p now r h a ((errorPageWriter p now r).forwarded .new a.calls) ↔
      Kept p now r a) ∧
    (KeepsPage p now r h a
      ((accessRecorder.stack (errorPageWriter p now r)).forwarded (.new, .new) a.calls) ↔
      Kept p now r a) := by
  rw [forwarded_stacked]
  exact ⟨keepsStatus_recorder h a, keepsPage_errorPageWriter h a, keepsPage_errorPageWriter h a⟩

/-- Early hints and then a page that is not found. -/
def hintedAnswer : Answer where
  infos := [103]
  informational := by simp [Informational]
  final := some 404
  isFinal := by simp [FinalCode]
  writes := [str "not found"]

def plainPlugin : ErrorPagePlugin := .init ⟨[], fun _ => [], []⟩ []

def startRequest : PageRequest := ⟨none, ∅, str "/", str "GET", []⟩

/-- The client receives 200 and the body, without a page. -/
theorem hintedAnswer_lost :
    hintedAnswer.status = 404 ∧ plainPlugin.shouldRender 404 = true ∧
    (serve ∅ (accessRecorder.forwarded .new hintedAnswer.calls)).map Response.status = some 200 ∧
    (serve ∅ ((errorPageWriter plainPlugin ⟨0, 1, 0, 2026, 0, 0, 0⟩ startRequest).forwarded .new
      hintedAnswer.calls)).map (fun response => (response.status, response.body)) =
        some (200, str "not found") ∧
    ¬ KeepsStatus ∅ hintedAnswer (accessRecorder.forwarded .new hintedAnswer.calls) ∧
    ¬ KeepsPage plainPlugin ⟨0, 1, 0, 2026, 0, 0, 0⟩ startRequest ∅ hintedAnswer
      ((errorPageWriter plainPlugin ⟨0, 1, 0, 2026, 0, 0, 0⟩ startRequest).forwarded .new
        hintedAnswer.calls) := by
  have hrecorder : (serve ∅ (accessRecorder.forwarded .new hintedAnswer.calls)).map
      Response.status = some 200 := by decide
  have hwriter : (serve ∅ ((errorPageWriter plainPlugin ⟨0, 1, 0, 2026, 0, 0, 0⟩
      startRequest).forwarded .new hintedAnswer.calls)).map
        (fun response => (response.status, response.body)) = some (200, str "not found") := by
    decide
  refine ⟨rfl, by decide, hrecorder, hwriter, ?_, ?_⟩
  · rintro ⟨response, hserve, hstatus⟩
    rw [hserve, Option.map_some, hstatus] at hrecorder
    cases hrecorder
  · rintro ⟨response, hserve, hstatus, -⟩
    rw [hserve, Option.map_some, hstatus] at hwriter
    cases hwriter

end Peretum.StatusWriters
