import Peretum.ProxyServer.Plugins
import Peretum.Wrapping

/-!
# The compression plugin

`WrapHandler` gives the inner handler a writer that keeps the status and the body back until the
handler returns, but lets changes of the headers and flushes through. Then it sends the body with
gzip or without. This file determines for which handlers the client receives the response it would
receive without the plugin.
-/

namespace Peretum.Compression

open Go Wrapping
open ProxyServer (acceptsGzip validLevel)

structure CompressionConfig where
  enabled : Bool
  level : Int
  minLength : Int
  /-- The types to compress in addition to the default ones. -/
  types : List Str

def defaultTypes : List Str :=
  ["text/html", "text/css", "text/javascript", "application/javascript", "application/json",
    "application/xml", "text/xml", "text/plain", "application/wasm", "image/svg+xml"].map str

/-- The keys of `typeMap`. -/
def CompressionConfig.typeMap (unicode : Str → Str) (config : CompressionConfig) : List Str :=
  defaultTypes ++ config.types.map fun t => toLower unicode (trimSpace t)

def CompressionConfig.shouldCompress (unicode : Str → Str) (config : CompressionConfig)
    (contentType : Str) (bodyLen : Nat) : Bool :=
  if (bodyLen : Int) < config.minLength then false
  else
    (config.typeMap unicode).contains
      ((split 0x3B (toLower unicode (trimSpace contentType))).headD [])

/-- The gzip format. A writer is given data and flushes, which are none. -/
structure Gzip where
  /-- The stream when the writer is closed. -/
  encode : List (Option Str) → Str
  decode : Str → Option Str
  decode_encode : ∀ ops, decode (encode ops) = some (ops.filterMap id).flatten

structure GzipResponseWriter where
  header : Header
  /-- What `writer` was given. -/
  writer : List (Option Str)
  raw : Str
  status : Nat
  wroteHeader : Bool
  originalSize : Nat
  contentType : Str
  contentEncoding : Str

namespace GzipResponseWriter

/-- The writer for a request. -/
def new (header : Header) : GzipResponseWriter := ⟨header, [], [], 0, false, 0, [], []⟩

def writeHeader (g : GzipResponseWriter) (status : Nat) : GzipResponseWriter :=
  { g with
    status := status
    wroteHeader := true
    contentType := g.header.get (str "Content-Type")
    contentEncoding := g.header.get (str "Content-Encoding") }

def write (g : GzipResponseWriter) (data : Str) : GzipResponseWriter :=
  let g := if g.wroteHeader then g else g.writeHeader 200
  { g with
    originalSize := g.originalSize + data.length
    raw := g.raw ++ data
    writer := g.writer ++ [some data] }

/-- `Flush`, without the flush of the wrapped writer. -/
def flush (g : GzipResponseWriter) : GzipResponseWriter := { g with writer := g.writer ++ [none] }

/-- The body is sent with gzip. -/
def compresses (unicode : Str → Str) (config : CompressionConfig) (g : GzipResponseWriter) : Bool :=
  g.status ≠ 0 && g.wroteHeader && g.contentEncoding = [] &&
    config.shouldCompress unicode g.contentType g.originalSize

end GzipResponseWriter

/-- The headers of a response that is sent with gzip. -/
def gzipHeader (h : Header) : Header :=
  ((h.set (str "Content-Encoding") (str "gzip")).set (str "Vary") (str "Accept-Encoding")).del
    (str "Content-Length")

variable (unicode : Str → Str) (config : CompressionConfig) (gzip : Gzip)

/-- The writer that the inner handler is given, and the last part of `WrapHandler`. -/
def compressor : Wrapper GzipResponseWriter WriterCall where
  step g
    | .header change => ({ g with header := change g.header }, [.header change])
    | .writeHeader code => (g.writeHeader code, [])
    | .write data => (g.write data, [])
    | .flush => (g.flush, [.flush])
  finish g :=
    if g.compresses unicode config then
      [.header gzipHeader, .writeHeader g.status, .write (gzip.encode g.writer)]
    else [.writeHeader g.status, .write g.raw]

/-- What the client receives through the plugin. -/
structure Outcome where
  /-- The plugin has added `Content-Encoding: gzip` to it. -/
  added : Bool
  response : Response

/-- The body when an encoding added by the plugin is undone. -/
def Outcome.body (o : Outcome) : Option Str :=
  if o.added then gzip.decode o.response.body else some o.response.body

/-- `WrapHandler` around a handler that makes these calls. -/
def wrapHandler (r : Waf.Request) (h : Header) (cs : List WriterCall) : Option Outcome :=
  if !config.enabled || !acceptsGzip r then (serve h cs).map (Outcome.mk false)
  -- the pool holds nil writers for a level that gzip does not have
  else if !validLevel config.level then none
  else
    let W := compressor unicode config gzip
    let g := W.after (.new h) cs
    (ResponseWriter.calls { ResponseWriter.fresh with header := h }
      (W.sends (.new h) cs)).bind fun w =>
      (w.calls (W.finish g)).map fun w' =>
        ⟨g.compresses unicode config && w.sent.isNone, w'.finish⟩

/-- The headers the plugin may change. -/
def exempt : List Str := [str "Content-Encoding", str "Content-Length", str "Vary"]

/-- All other headers are the same. -/
def Untouched (h h' : Header) : Prop := ∀ k, k ∉ exempt → h'.lookup k = h.lookup k

/-- The values of `Vary`. -/
def vary (h : Header) : List Str := (h.lookup (str "Vary")).getD []

/-- The client receives the response it would receive without the plugin. -/
def Transparent (r : Waf.Request) (h : Header) (cs : List WriterCall) : Prop :=
  ∃ direct out, serve h cs = some direct ∧ wrapHandler unicode config gzip r h cs = some out ∧
    out.response.status = direct.status ∧ out.body gzip = some direct.body ∧
    Untouched direct.header out.response.header ∧ vary direct.header ⊆ vary out.response.header

/-- The headers at the first flush. -/
def flushed : Header → List WriterCall → Option Header
  | _, [] => none
  | h, .header change :: cs => flushed (change h) cs
  | h, .flush :: _ => some h
  | h, _ :: cs => flushed h cs

/-- The status and the headers at the last `WriteHeader`, or else at the first `Write`; `given` is
what was found before. -/
def announced : Option (Nat × Header) → Header → List WriterCall → Option (Nat × Header)
  | given, _, [] => given
  | given, h, .header change :: cs => announced given (change h) cs
  | _, h, .writeHeader code :: cs => announced (some (code, h)) h cs
  | given, h, .write _ :: cs => announced (given.or (some (200, h))) h cs
  | given, h, .flush :: cs => announced given h cs

/-- The body is sent with gzip: at the call that announces the status, no encoding is set and the
type is one to compress. -/
def gzipped (h : Header) (cs : List WriterCall) : Bool :=
  (announced none h cs).any fun given =>
    given.2.get (str "Content-Encoding") = [] &&
      config.shouldCompress unicode (given.2.get (str "Content-Type")) (written cs).length

/-- A response that is kept back survives the plugin: the status announced last is the one to
commit, and the headers at the end are those to commit, where `Vary` must have no other values
than the plugin's own if the body is sent with gzip. -/
def SurvivesBuffered (h : Header) (cs : List WriterCall) : Prop :=
  ∃ status sent last, committed h cs = some (status, sent) ∧
    announced none h cs = some (status, last) ∧ Untouched sent (headerAfter h cs) ∧
    vary sent ⊆
      if gzipped unicode config h cs then [str "Accept-Encoding"] else vary (headerAfter h cs)

/-- A response that is flushed survives the plugin: it has status 200, the headers at the first
flush are those to commit, and the body is not sent with gzip, which the headers do not say. -/
def SurvivesFlushed (h : Header) (cs : List WriterCall) (early : Header) : Prop :=
  ∃ sent, committed h cs = some (200, sent) ∧ Untouched sent early ∧ vary sent ⊆ vary early ∧
    (gzipped unicode config h cs = true → gzip.encode (operations cs) = written cs)

/-- The response survives the plugin. -/
def Survives (h : Header) (cs : List WriterCall) : Prop :=
  validLevel config.level = true ∧
    (flushed h cs).elim (SurvivesBuffered unicode config h cs)
      (SurvivesFlushed unicode config gzip h cs)

section Calls

variable {unicode config gzip} {cs : List WriterCall}

/-- The calls the wrapper lets through at once. -/
def passes : WriterCall → Bool
  | .header _ | .flush => true
  | _ => false

/-- The wrapper lets changes of the headers and flushes through. -/
theorem sends_compressor (g : GzipResponseWriter) (cs : List WriterCall) :
    (compressor unicode config gzip).sends g cs = cs.filter passes := by
  induction cs generalizing g with
  | nil => rfl
  | cons c cs ih =>
    rw [Wrapper.sends, ih]
    cases c <;> rfl

theorem headerAfter_passes (h : Header) (cs : List WriterCall) :
    headerAfter h (cs.filter passes) = headerAfter h cs := by
  induction cs generalizing h with
  | nil => rfl
  | cons c cs ih => cases c <;> exact ih _

theorem committed_passes (h : Header) (cs : List WriterCall) :
    committed h (cs.filter passes) = (flushed h cs).map fun sent => (200, sent) := by
  induction cs generalizing h with
  | nil => rfl
  | cons c cs ih =>
    cases c with
    | header change | writeHeader code | write data => exact ih _
    | flush => rfl

theorem written_passes (cs : List WriterCall) : written (cs.filter passes) = [] := by
  induction cs with
  | nil => rfl
  | cons c cs ih => cases c <;> exact ih

theorem calls_sends (hfinal : ∀ c ∈ cs, c.Final) (g : GzipResponseWriter) (h : Header) :
    ResponseWriter.calls { ResponseWriter.fresh with header := h }
      ((compressor unicode config gzip).sends g cs) =
      some ⟨headerAfter h cs, (flushed h cs).map fun sent => (200, sent), [], false⟩ := by
  rw [sends_compressor, ResponseWriter.calls_eq fun c hc => hfinal c (List.mem_of_mem_filter hc),
    headerAfter_passes, committed_passes, written_passes]
  rfl

/-- The writer when a status was announced and a body written. -/
def state (given : Option (Nat × Header)) (h : Header) (ops : List (Option Str)) :
    GzipResponseWriter where
  header := h
  writer := ops
  raw := (ops.filterMap id).flatten
  status := given.elim 0 Prod.fst
  wroteHeader := given.isSome
  originalSize := (ops.filterMap id).flatten.length
  contentType := given.elim [] fun g => g.2.get (str "Content-Type")
  contentEncoding := given.elim [] fun g => g.2.get (str "Content-Encoding")

theorem after_compressor (given : Option (Nat × Header)) (h : Header) (ops : List (Option Str))
    (cs : List WriterCall) :
    (compressor unicode config gzip).after (state given h ops) cs =
      state (announced given h cs) (headerAfter h cs) (ops ++ operations cs) := by
  induction cs generalizing given h ops with
  | nil => simp [Wrapper.after, announced, headerAfter, operations]
  | cons c cs ih =>
    cases c with
    | header change => exact ih given (change h) ops
    | writeHeader code => exact ih (some (code, h)) h ops
    | write data =>
      have hstep : (state given h ops).write data =
          state (given.or (some (200, h))) h (ops ++ [some data]) := by
        cases given <;> simp [GzipResponseWriter.write, GzipResponseWriter.writeHeader, state]
      have hnext := ih (given.or (some (200, h))) h (ops ++ [some data])
      rw [← hstep, List.append_assoc] at hnext
      exact hnext
    | flush =>
      have hstep : (state given h ops).flush = state given h (ops ++ [none]) := by
        simp [GzipResponseWriter.flush, state]
      have hnext := ih given h (ops ++ [none])
      rw [← hstep, List.append_assoc] at hnext
      exact hnext

theorem announced_final (hfinal : ∀ c ∈ cs, c.Final) {given : Option (Nat × Header)} {h : Header}
    (hgiven : ∀ response ∈ given, (WriterCall.writeHeader response.1).Final) :
    ∀ response ∈ announced given h cs, (WriterCall.writeHeader response.1).Final := by
  induction cs generalizing given h with
  | nil => exact hgiven
  | cons c cs ih =>
    obtain ⟨hc, hrest⟩ := List.forall_mem_cons.mp hfinal
    cases c with
    | header change => exact ih hrest hgiven
    | writeHeader code =>
      refine ih hrest fun response hresponse => ?_
      obtain rfl := Option.mem_some.mp hresponse
      exact hc
    | write data =>
      refine ih hrest fun response hresponse => ?_
      cases given with
      | none =>
        obtain rfl := Option.mem_some.mp hresponse
        exact .inr (by omega)
      | some given => exact hgiven response hresponse
    | flush => exact ih hrest hgiven

theorem announced_none_final (hfinal : ∀ c ∈ cs, c.Final) (h : Header) :
    ∀ response ∈ announced none h cs, (WriterCall.writeHeader response.1).Final :=
  announced_final hfinal nofun

theorem announced_isSome (given : Option (Nat × Header)) {h : Header}
    (hflushed : flushed h cs = none) :
    (announced given h cs).isSome = (given.isSome || (committed h cs).isSome) := by
  induction cs generalizing given h with
  | nil => simp [announced, committed]
  | cons c cs ih =>
    cases c with
    | header change => exact ih given hflushed
    | writeHeader code =>
      rw [announced, ih _ hflushed]
      simp [committed]
    | write data =>
      rw [announced, ih _ hflushed]
      cases given <;> simp [committed]
    | flush => cases hflushed

/-- Whether the writer sends the body with gzip. -/
theorem compresses_state (hfinal : ∀ c ∈ cs, c.Final) (h : Header) :
    (state (announced none h cs) (headerAfter h cs) (operations cs)).compresses unicode config =
      gzipped unicode config h cs := by
  have hvalid := announced_none_final hfinal h
  unfold gzipped
  cases hgiven : announced none h cs with
  | none => rfl
  | some given =>
    have hpos : given.1 ≠ 0 := by
      rcases hvalid given hgiven with hcode | hcode <;> omega
    simp [GzipResponseWriter.compresses, state, hpos, written]

/-- The last calls of the plugin for a response whose status is announced. -/
theorem calls_finish (hfinal : ∀ c ∈ cs, c.Final) {h : Header} {given : Nat × Header}
    (hgiven : announced none h cs = some given) (w : ResponseWriter) (hw : w.body = []) :
    w.calls ((compressor unicode config gzip).finish
        (state (announced none h cs) (headerAfter h cs) (operations cs))) =
      some (if gzipped unicode config h cs then
        ⟨gzipHeader w.header, w.sent.or (some (given.1, gzipHeader w.header)),
          gzip.encode (operations cs), w.direct⟩
      else ⟨w.header, w.sent.or (some (given.1, w.header)), written cs, w.direct⟩) := by
  have hcode := announced_none_final hfinal h given hgiven
  rw [compressor]
  dsimp only
  rw [compresses_state hfinal, hgiven]
  cases gzipped unicode config h cs with
  | true =>
    rw [if_pos rfl, if_pos rfl, ResponseWriter.calls_eq]
    · simp [state, headerAfter, committed, written, operations, hw]
    · simpa [state, WriterCall.Final] using hcode
  | false =>
    rw [if_neg Bool.false_ne_true, if_neg Bool.false_ne_true, ResponseWriter.calls_eq]
    · simp [state, headerAfter, committed, written, operations, hw]
    · simpa [state, WriterCall.Final] using hcode

/-- The last calls of the plugin for a response whose status is not announced. -/
theorem finish_of_none {h : Header} (hgiven : announced none h cs = none) :
    (compressor unicode config gzip).finish
        (state (announced none h cs) (headerAfter h cs) (operations cs)) =
      [.writeHeader 0, .write (written cs)] := by
  rw [hgiven]
  rfl

variable {r : Waf.Request} {h : Header}

/-- `WrapHandler` when the plugin takes part. -/
theorem wrapHandler_on (hfinal : ∀ c ∈ cs, c.Final) (hon : config.enabled = true)
    (haccepts : acceptsGzip r = true) (hlevel : validLevel config.level = true) :
    wrapHandler unicode config gzip r h cs =
      (ResponseWriter.calls
        ⟨headerAfter h cs, (flushed h cs).map fun sent => (200, sent), [], false⟩
        ((compressor unicode config gzip).finish
          (state (announced none h cs) (headerAfter h cs) (operations cs)))).map fun w =>
        ⟨gzipped unicode config h cs && (flushed h cs).isNone, w.finish⟩ := by
  have hafter : (compressor unicode config gzip).after (.new h) cs =
      state (announced none h cs) (headerAfter h cs) (operations cs) :=
    after_compressor none h [] cs
  unfold wrapHandler
  simp only [hon, haccepts, hlevel, Bool.not_true, Bool.or_self, Bool.false_eq_true, if_false,
    calls_sends hfinal, Option.bind_some, hafter, compresses_state hfinal, Option.isNone_map]

/-- What the client receives of a response that is kept back. -/
theorem wrapHandler_buffered (unicode : Str → Str) (gzip : Gzip) (hfinal : ∀ c ∈ cs, c.Final)
    (hon : config.enabled = true) (haccepts : acceptsGzip r = true)
    (hlevel : validLevel config.level = true)
    (hflushed : flushed h cs = none) :
    wrapHandler unicode config gzip r h cs =
      (announced none h cs).map fun given =>
        if gzipped unicode config h cs then
          ⟨true, given.1, gzipHeader (headerAfter h cs), gzip.encode (operations cs)⟩
        else ⟨false, given.1, headerAfter h cs, written cs⟩ := by
  rw [wrapHandler_on hfinal hon haccepts hlevel, hflushed]
  cases hgiven : announced none h cs with
  | none =>
    -- No status is known, and `WriteHeader` panics for 0.
    rfl
  | some given =>
    rw [← hgiven, calls_finish hfinal hgiven _ rfl, hgiven]
    cases gzipped unicode config h cs <;> rfl

theorem wrapHandler_flushed (hfinal : ∀ c ∈ cs, c.Final) (hon : config.enabled = true)
    (haccepts : acceptsGzip r = true) (hlevel : validLevel config.level = true) {early : Header}
    (hflushed : flushed h cs = some early) :
    wrapHandler unicode config gzip r h cs =
      some ⟨false, 200, early,
        if gzipped unicode config h cs then gzip.encode (operations cs) else written cs⟩ := by
  rw [wrapHandler_on hfinal hon haccepts hlevel, hflushed]
  cases hgiven : announced none h cs with
  | none =>
    have hplain : gzipped unicode config h cs = false := by rw [gzipped, hgiven, Option.any_none]
    rw [← hgiven, finish_of_none hgiven, hplain]
    rfl
  | some given =>
    rw [← hgiven, calls_finish hfinal hgiven _ rfl]
    cases gzipped unicode config h cs <;> rfl

/-- The plugin touches no header but those it may change. -/
theorem untouched_gzipHeader {sent h : Header} :
    Untouched sent (gzipHeader h) ↔ Untouched sent h := by
  have hlookup : ∀ k, k ∉ exempt → (gzipHeader h).lookup k = h.lookup k := by
    intro k hk
    have hencoding : canonicalMIMEHeaderKey (str "Content-Encoding") = str "Content-Encoding" := by
      decide
    have hlength : canonicalMIMEHeaderKey (str "Content-Length") = str "Content-Length" := by decide
    have hvary : canonicalMIMEHeaderKey (str "Vary") = str "Vary" := by decide
    obtain ⟨hk1, hk2, hk3⟩ : k ≠ str "Content-Encoding" ∧ k ≠ str "Content-Length" ∧
        k ≠ str "Vary" := by simpa [exempt] using hk
    rw [gzipHeader, Header.lookup_del, Header.lookup_set, Header.lookup_set, hencoding, hlength,
      hvary, if_neg hk2, if_neg hk3, if_neg hk1]
  refine forall_congr' fun k => imp_congr_right fun hk => ?_
  rw [hlookup k hk]

/-- The plugin leaves no value of `Vary` but its own. -/
theorem vary_gzipHeader (h : Header) : vary (gzipHeader h) = [str "Accept-Encoding"] := by
  rfl

theorem committed_of_flushed {early : Header} (hflushed : flushed h cs = some early) :
    ∃ response, committed h cs = some response := by
  induction cs generalizing h with
  | nil => cases hflushed
  | cons c cs ih =>
    cases c with
    | header change => exact ih hflushed
    | writeHeader code | write data | flush => exact ⟨_, rfl⟩

theorem transparent_iff_of_eq {direct : Response} {out : Outcome}
    (hdirect : serve h cs = some direct)
    (hout : wrapHandler unicode config gzip r h cs = some out) :
    Transparent unicode config gzip r h cs ↔
      out.response.status = direct.status ∧ out.body gzip = some direct.body ∧
        Untouched direct.header out.response.header ∧
        vary direct.header ⊆ vary out.response.header := by
  rw [Transparent, hdirect, hout]
  constructor
  · rintro ⟨_, _, ⟨⟩, ⟨⟩, hsame⟩
    exact hsame
  · exact fun hsame => ⟨direct, out, rfl, rfl, hsame⟩

/-- A response that is kept back is transparent if it survives. -/
theorem transparent_buffered_iff (hfinal : ∀ c ∈ cs, c.Final) (hon : config.enabled = true)
    (haccepts : acceptsGzip r = true) (hlevel : validLevel config.level = true)
    (hflushed : flushed h cs = none) :
    Transparent unicode config gzip r h cs ↔ SurvivesBuffered unicode config h cs := by
  have hsome := announced_isSome none hflushed
  have hserve := serve_eq hfinal h
  have hwrap := wrapHandler_buffered unicode gzip hfinal hon haccepts hlevel hflushed
  cases hcommitted : committed h cs with
  | none =>
    have hnone : announced none h cs = none := by simpa [hcommitted] using hsome
    rw [hnone] at hwrap
    simp [Transparent, SurvivesBuffered, hwrap, hcommitted]
  | some response =>
    obtain ⟨⟨status, header⟩, hlast⟩ : ∃ last, announced none h cs = some last := by
      rw [← Option.isSome_iff_exists, hsome, hcommitted]
      rfl
    rw [hlast, Option.map_some] at hwrap
    rw [transparent_iff_of_eq hserve hwrap, SurvivesBuffered, hcommitted, hlast]
    cases gzipped unicode config h cs with
    | true =>
      have hbody : gzip.decode (gzip.encode (operations cs)) = some (written cs) :=
        gzip.decode_encode _
      simp only [if_pos, ResponseWriter.finish, Outcome.body, hbody, untouched_gzipHeader,
        vary_gzipHeader]
      constructor
      · rintro ⟨rfl, -, huntouched, hvary⟩
        exact ⟨_, _, _, rfl, rfl, huntouched, hvary⟩
      · rintro ⟨_, _, _, ⟨⟩, ⟨⟩, huntouched, hvary⟩
        exact ⟨rfl, trivial, huntouched, hvary⟩
    | false =>
      simp only [Bool.false_eq_true, if_false, ResponseWriter.finish, Outcome.body]
      constructor
      · rintro ⟨rfl, -, huntouched, hvary⟩
        exact ⟨_, _, _, rfl, rfl, huntouched, hvary⟩
      · rintro ⟨_, _, _, ⟨⟩, ⟨⟩, huntouched, hvary⟩
        exact ⟨rfl, trivial, huntouched, hvary⟩

theorem transparent_flushed_iff (hfinal : ∀ c ∈ cs, c.Final) (hon : config.enabled = true)
    (haccepts : acceptsGzip r = true) (hlevel : validLevel config.level = true) {early : Header}
    (hflushed : flushed h cs = some early) :
    Transparent unicode config gzip r h cs ↔ SurvivesFlushed unicode config gzip h cs early := by
  obtain ⟨⟨status, sent⟩, hcommitted⟩ := committed_of_flushed hflushed
  have hserve := serve_eq hfinal h
  rw [transparent_iff_of_eq hserve (wrapHandler_flushed hfinal hon haccepts hlevel hflushed),
    SurvivesFlushed, hcommitted]
  simp only [ResponseWriter.finish, Outcome.body, Bool.false_eq_true, if_false, Option.some.injEq]
  constructor
  · rintro ⟨rfl, hbody, huntouched, hvary⟩
    refine ⟨sent, rfl, huntouched, hvary, fun hgzip => ?_⟩
    rwa [if_pos hgzip] at hbody
  · rintro ⟨_, ⟨⟩, huntouched, hvary, hbody⟩
    refine ⟨rfl, ?_, huntouched, hvary⟩
    split
    · next hgzip => exact hbody hgzip
    · rfl

/-- The plugin is transparent for a handler exactly if it takes no part in the request, or if the
response survives it. -/
theorem transparent_iff (hfinal : ∀ c ∈ cs, c.Final) :
    Transparent unicode config gzip r h cs ↔
      (config.enabled = true → acceptsGzip r = true → Survives unicode config gzip h cs) := by
  by_cases hpart : config.enabled = true ∧ acceptsGzip r = true
  · obtain ⟨hon, haccepts⟩ := hpart
    simp only [hon, haccepts, forall_const, Survives]
    cases hlevel : validLevel config.level with
    | false =>
      have hpanic : wrapHandler unicode config gzip r h cs = none := by
        simp [wrapHandler, hon, haccepts, hlevel]
      simp [Transparent, hpanic]
    | true =>
      cases hflushed : flushed h cs with
      | none => simp [transparent_buffered_iff hfinal hon haccepts hlevel hflushed]
      | some early => simp [transparent_flushed_iff hfinal hon haccepts hlevel hflushed]
  · have hoff : (!config.enabled || !acceptsGzip r) = true := by
      cases hon : config.enabled <;> cases haccepts : acceptsGzip r <;> simp_all
    refine iff_of_true ?_ fun hon haccepts => absurd ⟨hon, haccepts⟩ hpart
    rw [Transparent, serve_eq hfinal]
    refine ⟨_, ⟨false, _⟩, rfl, ?_, rfl, rfl, fun k _ => rfl, fun v hv => hv⟩
    rw [wrapHandler, if_pos hoff, serve_eq hfinal]
    rfl

end Calls

def storedGzip : Gzip where
  encode ops := 0x1F :: 0x8B :: (ops.filterMap id).flatten
  decode data := some (data.drop 2)
  decode_encode _ := rfl

/-- The plugin for bodies of any length. -/
def eagerConfig : CompressionConfig := ⟨true, 6, 0, []⟩

def gzipRequest : Waf.Request :=
  { Waf.adminRequest "GET" with
    header := Header.set ∅ (str "Accept-Encoding") (str "gzip, br") }

/-- A handler that sends a text with one more header. -/
def textCalls (name value : String) : List WriterCall :=
  [.header fun h => (h.set (str "Content-Type") (str "text/plain")).set (str name) (str value),
    .writeHeader 200, .write (str "hello")]

/-- A text survives the plugin. -/
theorem text_transparent :
    Transparent id eagerConfig storedGzip gzipRequest ∅ (textCalls "Etag" "1") := by
  refine (transparent_iff fun c hc => ?_).mpr fun _ _ => ⟨rfl, 200, _, _, rfl, rfl, ?_, ?_⟩
  · simp only [textCalls, List.mem_cons, List.not_mem_nil, or_false] at hc
    rcases hc with rfl | rfl | rfl
    · trivial
    · exact .inr (by decide)
    · trivial
  · exact fun _ _ => rfl
  · decide

/-- A value of `Vary` is lost, a handler without calls panics, and a body that is flushed arrives
with gzip although the headers do not say so. -/
theorem vary_lost :
    (serve ∅ (textCalls "Vary" "Origin")).map (fun direct => vary direct.header) =
      some [str "Origin"] ∧
    (wrapHandler id eagerConfig storedGzip gzipRequest ∅ (textCalls "Vary" "Origin")).map
      (fun out => vary out.response.header) = some [str "Accept-Encoding"] ∧
    (serve ∅ []).map Response.status = some 200 ∧
    (wrapHandler id eagerConfig storedGzip gzipRequest ∅ []).isNone ∧
    (wrapHandler id eagerConfig storedGzip gzipRequest ∅ (textCalls "Etag" "1" ++ [.flush])).map
      (fun out => (out.added, out.response.body)) = some (false, 0x1F :: 0x8B :: str "hello") ∧
    ¬ Transparent id eagerConfig storedGzip gzipRequest ∅ (textCalls "Vary" "Origin") := by
  have hdirect : (serve ∅ (textCalls "Vary" "Origin")).map (fun direct => vary direct.header) =
      some [str "Origin"] := by decide
  have hout : (wrapHandler id eagerConfig storedGzip gzipRequest ∅ (textCalls "Vary" "Origin")).map
      (fun out => vary out.response.header) = some [str "Accept-Encoding"] := by decide
  refine ⟨hdirect, hout, rfl, rfl, by decide, ?_⟩
  rintro ⟨direct, out, hserve, hwrap, -, -, -, hvary⟩
  rw [hserve, Option.map_some, Option.some.injEq] at hdirect
  rw [hwrap, Option.map_some, Option.some.injEq] at hout
  rw [hdirect, hout] at hvary
  exact absurd hvary (by decide)

end Peretum.Compression
