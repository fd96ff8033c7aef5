import Fissure.Library.QueryString
import Fissure.Model.Tracker

/-!
# The URL of an announce over HTTP

`generate_query_string` in `protocols/tracker.rs` and what
`refresh_peer_list_from_http_trackers` makes of it. The peer id is encoded by the crate
`urlencoding`, whose `encode` comes as `urlEncode`.
-/

set_option autoImplicit false

namespace Fissure.Model

open Fissure.Library

/-- `TrackerRequest::generate_query_string`. -/
def TrackerRequest.generateQueryString (urlEncode : String → String) (r : TrackerRequest) :
    String :=
  let encodedInfoHash := String.ofList (r.infoHash.flatMap percentByte)
  let encodedPeerId := urlEncode r.peerId
  "info_hash=" ++ encodedInfoHash ++ "&peer_id=" ++ encodedPeerId ++ "&port=" ++ r.port ++
    "&uploaded=" ++ r.uploaded ++ "&downloaded=" ++ r.downloaded ++ "&left=" ++ r.left ++
    "&compact=1&event=started"

/-- `url_with_parameters`. -/
def urlWithParameters (urlEncode : String → String) (url : String) (req : TrackerRequest) : String :=
  let separator := if '?' ∈ url.toList then "&" else "?"
  url ++ separator ++ req.generateQueryString urlEncode

end Fissure.Model
