import Peretum.Go.ResponseWriter

/-!
# What a reverse proxy does to response headers

`httputil.ReverseProxy` takes a response from its transport, removes the headers
that concern a single connection, lets a hook change the rest, and adds what is
left to the headers of the client's response.
-/

namespace Go

/-- The spaces `textproto.TrimString` cuts off. -/
def isASCIISpace (b : UInt8) : Bool := b == 0x20 || b == 0x09 || b == 0x0A || b == 0x0D

/-- `textproto.TrimString`. -/
def trimString (s : Str) : Str :=
  ((s.dropWhile isASCIISpace).reverse.dropWhile isASCIISpace).reverse

/-- The fixed list of hop-by-hop headers. -/
def hopHeaders : List Str :=
  [str "Connection", str "Proxy-Connection", str "Keep-Alive", str "Proxy-Authenticate",
    str "Proxy-Authorization", str "Te", str "Trailer", str "Transfer-Encoding", str "Upgrade"]

namespace Header

/-- The headers a message declares hop-by-hop in its `Connection` header. -/
def connectionOptions (h : Header) : List Str :=
  ((((h.lookup (str "Connection")).getD []).flatMap (split 0x2C)).map trimString).filter (· ≠ [])

def removeHopByHopHeaders (h : Header) : Header :=
  (h.delAll h.connectionOptions).delAll hopHeaders

/-- The header concerns a single connection of the message. -/
def HopByHop (h : Header) (name : Str) : Prop :=
  name ∈ h.connectionOptions.map canonicalMIMEHeaderKey ∨
    name ∈ hopHeaders.map canonicalMIMEHeaderKey

instance (h : Header) (name : Str) : Decidable (HopByHop h name) :=
  inferInstanceAs (Decidable (_ ∨ _))

theorem lookup_removeHopByHopHeaders {h : Header} {name : Str} (hname : ¬ HopByHop h name) :
    h.removeHopByHopHeaders.lookup name = h.lookup name := by
  obtain ⟨hoption, hfixed⟩ := not_or.mp hname
  rw [removeHopByHopHeaders, lookup_delAll, if_neg hfixed, lookup_delAll, if_neg hoption]

theorem Canonical.removeHopByHopHeaders {h : Header} (hcanon : Canonical h) :
    Canonical h.removeHopByHopHeaders :=
  (hcanon.delAll _).delAll _

end Header

/-- The response of `ReverseProxy.ServeHTTP` after an answer of its transport with a
status other than 101. -/
def reverseProxy (modifyResponse : Nat → Header → Header) (w : ResponseWriter)
    (statusCode : Nat) (header : Header) (body : Str) : ResponseWriter :=
  let header := modifyResponse statusCode header.removeHopByHopHeaders
  ({ w with header := w.header.copy header }.writeHeader statusCode).copyFrom body |>.2

theorem sent_reverseProxy {w : ResponseWriter} (hsent : w.sent = none)
    (modifyResponse : Nat → Header → Header) {statusCode : Nat} (hstatus : 200 ≤ statusCode)
    (header : Header) (body : Str) :
    (reverseProxy modifyResponse w statusCode header body).sent =
      some (statusCode,
        w.header.copy (modifyResponse statusCode header.removeHopByHopHeaders)) := by
  refine ResponseWriter.sent_copyFrom ?_ body
  rw [ResponseWriter.sent_writeHeader (by exact hsent) hstatus]

end Go
