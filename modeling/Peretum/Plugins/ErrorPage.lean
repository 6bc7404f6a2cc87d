import Peretum.Go.Header
import Peretum.Go.Net
import Peretum.Substitution

/-!
# Error pages

`renderPage` puts the data of a request into a template, one token after the other. The values are
escaped, but they may contain tokens that are replaced later. This file shows that this cannot
change the markup of the page.
-/

namespace Peretum.ErrorPage

open Go Substitution

/-- `strings.ReplaceAll`, for a string to replace that is not empty. -/
def replaceAll (s old new : Str) : Str := replaceFrom old new 0 s

def messageForStatus (code : Int) : Str :=
  if code = 400 then str "The server could not understand your request."
  else if code = 403 then str "You do not have permission to access the requested page."
  else if code = 404 then str "The page you requested could not be found on this server."
  else if code = 500 then str "An unexpected error occurred while processing your request."
  else if code = 502 then str "The upstream server returned an invalid or incomplete response."
  else if code = 503 then str "The service is temporarily unavailable. Please try again shortly."
  else if code = 504 then
    str "The upstream server did not respond in time. Please try again shortly."
  else str "An error occurred while processing your request."

def escape (s : Str) : Str :=
  let s := replaceAll s (str "&") (str "&amp;")
  let s := replaceAll s (str "<") (str "&lt;")
  let s := replaceAll s (str ">") (str "&gt;")
  let s := replaceAll s (str "\"") (str "&quot;")
  replaceAll s (str "'") (str "&#39;")

def hostOnly (remoteAddr : Str) : Str :=
  match splitHostPort remoteAddr with
  | some (host, _) => host
  | none => if remoteAddr = [] then str "-" else trimSpace remoteAddr

/-- The parts of an `http.Request` that are put into a page. -/
structure PageRequest where
  /-- The value of the context that `base.RequestID` reads. -/
  contextID : Option Str
  header : Header
  path : Str
  method : Str
  remoteAddr : Str

def requestID (r : PageRequest) : Str :=
  let id := r.contextID.getD []
  if id ≠ [] then id
  else
    let id := r.header.get (str "X-Request-ID")
    if id ≠ [] then id else str "-"

/-- `strconv.Itoa`. -/
def itoa (n : Int) : Str := if n < 0 then str "-" ++ natString n.natAbs else natString n.natAbs

structure Time where
  weekday : Fin 7
  day : Nat
  month : Fin 12
  year : Nat
  hour : Nat
  minute : Nat
  second : Nat

/-- The short name of a day. -/
def shortDayName (weekday : Fin 7) : Str :=
  str (["Sun", "Mon", "Tue", "Wed", "Thu", "Fri", "Sat"].get weekday)

/-- The short name of a month. -/
def shortMonthName (month : Fin 12) : Str :=
  str (["Jan", "Feb", "Mar", "Apr", "May", "Jun", "Jul", "Aug", "Sep", "Oct", "Nov", "Dec"].get
    month)

/-- A number with leading zeros. -/
def padded (width n : Nat) : Str :=
  List.replicate (width - (natString n).length) 0x30 ++ natString n

/-- `Format("Mon, 02 Jan 2006 15:04:05 GMT")`. -/
def Time.format (t : Time) : Str :=
  shortDayName t.weekday ++ str ", " ++ padded 2 t.day ++ str " " ++ shortMonthName t.month ++
    str " " ++ padded 4 t.year ++ str " " ++ padded 2 t.hour ++ str ":" ++ padded 2 t.minute ++
    str ":" ++ padded 2 t.second ++ str " GMT"

/-- A token of the template. -/
def token (name : String) : Str := str "\x7b\x7b" ++ str name ++ str "\x7d\x7d"

def errorPageTemplate : Str := str "<!DOCTYPE html>
<html lang=\"en\">
<head>
<meta charset=\"utf-8\">
<meta name=\"viewport\" content=\"width=device-width, initial-scale=1\">
<meta name=\"robots\" content=\"noindex,nofollow\">
<title>\x7b\x7bCODE\x7d\x7d \x7b\x7bSTATUS\x7d\x7d</title>
<style>
  * \x7b box-sizing: border-box; margin: 0; padding: 0; \x7d
  body \x7b
    font-family: -apple-system, BlinkMacSystemFont, \"Segoe UI\", Roboto,
      \"Helvetica Neue\", Arial, sans-serif;
    min-height: 100vh;
    display: flex;
    align-items: center;
    justify-content: center;
    background: radial-gradient(1200px 800px at 50% -10%, #1b2a4a 0%, #0f172a 55%, #0b1222 100%);
    color: #e2e8f0;
    padding: 24px;
  \x7d
  .card \x7b
    max-width: 560px;
    width: 100%;
    text-align: center;
    padding: 48px 40px;
    background: rgba(15, 23, 42, 0.72);
    border: 1px solid rgba(148, 163, 184, 0.16);
    border-radius: 20px;
    backdrop-filter: blur(8px);
    box-shadow: 0 30px 60px rgba(2, 6, 23, 0.55);
  \x7d
  .logo \x7b margin: 0 auto 28px; width: 84px; height: 84px; \x7d
  .logo svg \x7b width: 100%; height: 100%; color: #7dd3fc; \x7d
  .code \x7b
    font-size: 88px;
    font-weight: 800;
    line-height: 1;
    letter-spacing: 2px;
    color: #0ea5e9;
    text-shadow: 0 0 32px rgba(14, 165, 233, 0.4);
  \x7d
  .status \x7b
    margin-top: 8px;
    font-size: 22px;
    font-weight: 600;
    letter-spacing: 4px;
    text-transform: uppercase;
    color: #cbd5e1;
  \x7d
  .message \x7b
    margin-top: 16px;
    font-size: 15px;
    line-height: 1.7;
    color: #94a3b8;
  \x7d
  .request \x7b
    margin-top: 18px;
    font-size: 13px;
    color: #64748b;
  \x7d
  .request code \x7b
    color: #7dd3fc;
    font-family: ui-monospace, SFMono-Regular, Menlo, Consolas, monospace;
    background: rgba(125, 211, 252, 0.08);
    padding: 3px 8px;
    border-radius: 6px;
  \x7d
  .meta \x7b
    margin-top: 28px;
    padding-top: 20px;
    border-top: 1px solid rgba(148, 163, 184, 0.14);
    display: flex;
    flex-wrap: wrap;
    justify-content: center;
    gap: 8px 18px;
    font-size: 12px;
    color: #64748b;
  \x7d
  .meta span \x7b white-space: nowrap; \x7d
  .brand \x7b
    margin-top: 22px;
    font-size: 12px;
    letter-spacing: 5px;
    text-transform: uppercase;
    color: #3b4a63;
  \x7d
  @media (max-width: 520px) \x7b
    .card \x7b padding: 36px 20px; \x7d
    .code \x7b font-size: 64px; \x7d
  \x7d
</style>
</head>
<body>
  <div class=\"card\">
    <div class=\"logo\">\x7b\x7bLOGO\x7d\x7d</div>
    <div class=\"code\">\x7b\x7bCODE\x7d\x7d</div>
    <div class=\"status\">\x7b\x7bSTATUS\x7d\x7d</div>
    <p class=\"message\">\x7b\x7bMESSAGE\x7d\x7d</p>
    <div class=\"request\">Request ID: <code>\x7b\x7bREQUEST_ID\x7d\x7d</code></div>
    <div class=\"meta\">
      <span>Time: \x7b\x7bTIME\x7d\x7d</span>
      <span>Host: \x7b\x7bHOST\x7d\x7d</span>
      <span>Method: \x7b\x7bMETHOD\x7d\x7d</span>
      <span>Path: \x7b\x7bPATH\x7d\x7d</span>
      <span>Client: \x7b\x7bREMOTE\x7d\x7d</span>
    </div>
    <div class=\"brand\">Peretum Edge Gateway</div>
  </div>
</body>
</html>
"

/-- The files and tables that pages are made of. -/
structure Assets where
  logoSVG : Str
  statusText : Int → Str
  hostname : Str

variable (assets : Assets) (now : Time)

/-- `renderPage` before the data of the request: the page for a status. -/
def statusPage (status : Int) : Str :=
  let statusText :=
    if assets.statusText status = [] then str "Error" else assets.statusText status
  let page := errorPageTemplate
  let page := replaceAll page (token "LOGO") assets.logoSVG
  let page := replaceAll page (token "CODE") (itoa status)
  let page := replaceAll page (token "STATUS") (escape statusText)
  replaceAll page (token "MESSAGE") (escape (messageForStatus status))

/-- `renderPage` at a time; the request may be nil. -/
def renderPage (status : Int) (r : Option PageRequest) : Str :=
  let page := statusPage assets status
  let page := replaceAll page (token "REQUEST_ID")
    (r.elim (str "-") fun r => escape (requestID r))
  let page := replaceAll page (token "TIME") now.format
  let page := replaceAll page (token "HOST") (escape assets.hostname)
  let page := replaceAll page (token "METHOD") (r.elim [] fun r => escape r.method)
  let page := replaceAll page (token "PATH") (r.elim [] fun r => escape r.path)
  replaceAll page (token "REMOTE") (r.elim [] fun r => escape (hostOnly r.remoteAddr))

/-- The bytes of markup: `<`, `>` and the two quotes. -/
def markupBytes : Str := [0x3C, 0x3E, 0x22, 0x27]

theorem mem_markupBytes {b : UInt8} (hb : b ∈ markupBytes) :
    b = 0x3C ∨ b = 0x3E ∨ b = 0x22 ∨ b = 0x27 := by
  simpa [markupBytes] using hb

/-- The markup of a page, in order. -/
def markup (s : Str) : Str := s.filter (· ∈ markupBytes)

theorem markup_eq_nil_iff {s : Str} : markup s = [] ↔ ∀ b ∈ markupBytes, b ∉ s := by
  simp only [markup, List.filter_eq_nil_iff, decide_eq_true_eq]
  exact ⟨fun h b hb hs => h b hs hb, fun h b hs hb => h b hb hs⟩

@[simp] theorem markup_append (s t : Str) : markup (s ++ t) = markup s ++ markup t :=
  List.filter_append ..

theorem markup_replaceAll (page : Str) {old new : Str} (hold : old ≠ []) (hmold : markup old = [])
    (hmnew : markup new = []) : markup (replaceAll page old new) = markup page :=
  filter_replaceFrom hold hmold hmnew 0 page

/-- No byte of markup is left by `escape`. -/
theorem markup_escape (s : Str) : markup (escape s) = [] := by
  rw [markup_eq_nil_iff]
  intro b hb
  rcases mem_markupBytes hb with rfl | rfl | rfl | rfl
  · refine notMem_replaceFrom (by decide) (notMem_replaceFrom (by decide)
      (notMem_replaceFrom (by decide) ?_))
    exact notMem_replaceFrom_singleton (by decide) _
  · refine notMem_replaceFrom (by decide) (notMem_replaceFrom (by decide) ?_)
    exact notMem_replaceFrom_singleton (by decide) _
  · refine notMem_replaceFrom (by decide) ?_
    exact notMem_replaceFrom_singleton (by decide) _
  · exact notMem_replaceFrom_singleton (by decide) _

theorem markup_natString (n : Nat) : markup (natString n) = [] := by
  rw [markup_eq_nil_iff]
  intro b hb
  apply (digits_natString n).notMem
  rcases mem_markupBytes hb with rfl | rfl | rfl | rfl <;> decide

theorem markup_format (t : Time) : markup t.format = [] := by
  have hpadded : ∀ width n, markup (padded width n) = [] := by
    intro width n
    rw [padded, markup_append, markup_natString, List.append_nil, markup_eq_nil_iff]
    intro b hb hmem
    rw [List.eq_of_mem_replicate hmem] at hb
    exact absurd hb (by decide)
  have hday : ∀ weekday, markup (shortDayName weekday) = [] := by decide
  have hmonth : ∀ month, markup (shortMonthName month) = [] := by decide
  simp only [Time.format, markup_append, hpadded, hday, hmonth, List.nil_append]
  decide

/-- The data of the request adds no markup to the page for the status, and removes none. -/
theorem markup_renderPage (status : Int) (r : Option PageRequest) :
    markup (renderPage assets now status r) = markup (statusPage assets status) := by
  have helim : ∀ (value : Str) (f : PageRequest → Str), markup value = [] →
      markup (r.elim value fun r => escape (f r)) = [] := by
    intro value f hvalue
    cases r with
    | none => exact hvalue
    | some r => exact markup_escape (f r)
  unfold renderPage
  rw [markup_replaceAll _ (by decide) (by decide) (helim [] _ rfl),
    markup_replaceAll _ (by decide) (by decide) (helim [] _ rfl),
    markup_replaceAll _ (by decide) (by decide) (helim [] _ rfl),
    markup_replaceAll _ (by decide) (by decide) (markup_escape _),
    markup_replaceAll _ (by decide) (by decide) (markup_format now),
    markup_replaceAll _ (by decide) (by decide) (helim (str "-") _ (by decide))]

/-- The pages for two requests have the same markup. -/
theorem markup_renderPage_eq (status : Int) (r r' : Option PageRequest) :
    markup (renderPage assets now status r) = markup (renderPage assets now status r') := by
  rw [markup_renderPage, markup_renderPage]

end Peretum.ErrorPage
