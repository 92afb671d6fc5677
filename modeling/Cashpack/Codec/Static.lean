import Cashpack.Codec.Types

/-!
# Static data

The static table (`hpack_static.h`), the copy of it that the generator sorts for the binary
search (`hpack_static_hdr.c`), and the pseudo-headers (`hpack_pseudo_headers.h`).
-/

namespace Cashpack

/-- The names and values of `hpack_static.h`, in index order. -/
def hpsTable : List (String × String) := [
  (":authority", ""),
  (":method", "GET"),
  (":method", "POST"),
  (":path", "/"),
  (":path", "/index.html"),
  (":scheme", "http"),
  (":scheme", "https"),
  (":status", "200"),
  (":status", "204"),
  (":status", "206"),
  (":status", "304"),
  (":status", "400"),
  (":status", "404"),
  (":status", "500"),
  ("accept-charset", ""),
  ("accept-encoding", "gzip, deflate"),
  ("accept-language", ""),
  ("accept-ranges", ""),
  ("accept", ""),
  ("access-control-allow-origin", ""),
  ("age", ""),
  ("allow", ""),
  ("authorization", ""),
  ("cache-control", ""),
  ("content-disposition", ""),
  ("content-encoding", ""),
  ("content-language", ""),
  ("content-length", ""),
  ("content-location", ""),
  ("content-range", ""),
  ("content-type", ""),
  ("cookie", ""),
  ("date", ""),
  ("etag", ""),
  ("expect", ""),
  ("expires", ""),
  ("from", ""),
  ("host", ""),
  ("if-match", ""),
  ("if-modified-since", ""),
  ("if-none-match", ""),
  ("if-range", ""),
  ("if-unmodified-since", ""),
  ("last-modified", ""),
  ("link", ""),
  ("location", ""),
  ("max-forwards", ""),
  ("proxy-authenticate", ""),
  ("proxy-authorization", ""),
  ("range", ""),
  ("referer", ""),
  ("refresh", ""),
  ("retry-after", ""),
  ("server", ""),
  ("set-cookie", ""),
  ("strict-transport-security", ""),
  ("transfer-encoding", ""),
  ("user-agent", ""),
  ("vary", ""),
  ("via", ""),
  ("www-authenticate", "")]

/-- An entry of the static table. -/
structure HdrEntry where
  nam : Octets
  val : Octets
  idx : ℕ
deriving DecidableEq

/-- `hpt_static`. -/
def hptStatic : List HdrEntry :=
  hpsTable.zipIdx.map fun e => ⟨ascii e.1.1, ascii e.1.2, e.2 + 1⟩

/-- `strcmp`, up to its magnitude. -/
def strcmp : Octets → Octets → ℤ
  | [], [] => 0
  | [], _ :: _ => -1
  | _ :: _, [] => 1
  | a :: as, b :: bs => if a = b then strcmp as bs else if a < b then -1 else 1

/-- `hdr_cmp` of the generator. -/
def hdrCmp (h1 h2 : HdrEntry) : ℤ :=
  if h1.nam.length ≠ h2.nam.length then (h1.nam.length : ℤ) - h2.nam.length
  else if strcmp h1.nam h2.nam ≠ 0 then strcmp h1.nam h2.nam
  else if h1.val.length ≠ h2.val.length then (h1.val.length : ℤ) - h2.val.length
  else strcmp h1.val h2.val

/-- `hpack_static_hdr`: the static table in the order of `hdr_cmp`. -/
def hpackStaticHdr : List HdrEntry := hptStatic.mergeSort fun a b => hdrCmp a b ≤ 0

/-- The pseudo-headers of `hpack_pseudo_headers.h`. -/
def hpphTable : List Octets := [
  ":authority",
  ":method",
  ":path",
  ":protocol",
  ":scheme",
  ":status"].map ascii

theorem length_hptStatic : hptStatic.length = hpackStatic := by
  decide

theorem mem_hpackStaticHdr {e : HdrEntry} : e ∈ hpackStaticHdr ↔ e ∈ hptStatic :=
  List.mem_mergeSort

end Cashpack
