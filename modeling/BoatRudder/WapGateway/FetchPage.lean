import BoatRudder.Formats.MessageHead
import BoatRudder.WapGateway.Datagram
import BoatRudder.WapGateway.PageParam
import BoatRudder.WebServer.InetAddress

/-! # The request the gateway makes

`handle_request` takes the host and the path out of the URI a phone asked for, and `fetch_page` puts
them, with what a form came with, into the head of an HTTP request. -/

namespace BoatRudder.WapGateway

open Wbxml WebServer

/-! ## The address -/

/-- What `uri_host` lets through: a DNS name or an IPv4 address, with a port or without, in lower
case. -/
def plainHost (host : Bytes) (size : ℕ) : Bytes :=
  let name := host.takeWhile (· ≠ 58)
  let port := afterByte 58 host
  if host = [] ∨ 253 < host.length ∨ size ≤ host.length then []
  else if name = [] then []
  else if !name.all (fun b => isAlnum b || b == 46 || b == 45) || !port.all isDigit then []
  else if 58 ∈ host ∧ port = [] then []
  else lower host

/-- `uri_host`: the host and port of an absolute URI, into a buffer of `size` bytes. -/
def uriHost (uri : Bytes) (size : ℕ) : Bytes :=
  match findSub (lit "://") uri with
  | none => []
  | some i =>
    let authority := (uri.drop (i + 3)).takeWhile (fun b => b != 47 && b != 63 && b != 35)
    -- what stands before the first `@` is a user and a password
    plainHost (if 64 ∈ authority then afterByte 64 authority else authority) size

/-- `local_path`: the path and query of a URI, without its fragment, into a buffer of `size`
bytes. -/
def localPath (uri : Bytes) (size : ℕ) : Bytes :=
  let path := match findSub (lit "://") uri with
    | some i =>
      let rest := (uri.drop (i + 3)).dropWhile (· ≠ 47)
      if rest = [] then lit "/" else rest
    | none => if uri.head? = some 47 then uri else lit "/"
  let out := (path.take (size - 1)).takeWhile (· ≠ 35)
  if out = [] then lit "/" else out

/-- `sizeof(page0)` and `sizeof(path)` in `handle_request`. -/
def pathSize : ℕ := 1100

/-- The path that `handle_request` asks for: that of the first page. -/
def requestPath (uri : Bytes) : Bytes := localPath (setPageParam uri 0 pathSize) pathSize

/-- The host that `handle_request` asks. -/
def requestHost (uri : Bytes) : Bytes := uriHost (setPageParam uri 0 pathSize) 256

/-- The path that `fetch_following` asks for. -/
def fetchPath (path : Bytes) : Bytes :=
  (path ++ ((if 63 ∈ path then lit "&" else lit "?") ++ lit "preview_epoch=-1&wml_pages=all")).take
    1199

/-! ## The head -/

/-- `post_headers` of `fetch_page`. -/
def postHeaders : Option WapPost → Bytes
  | none => []
  | some post =>
    (lit "Content-Type: " ++ post.headers.contentType ++ crlf ++
      (lit "Content-Length: " ++ decimal post.bodyLen ++ crlf)).take 511

/-- The `User-Agent` of `fetch_page`. -/
def fetchUserAgent (post : Option WapPost) : Bytes :=
  match post with
  | some p => if p.headers.userAgent = [] then lit "BoatRudder-WAP-Gateway" else p.headers.userAgent
  | none => lit "BoatRudder-WAP-Gateway"

/-- The head of the request `fetch_page` sends, when `room` bytes hold it and its NUL. -/
def fetchHead (host path clientIp : Bytes) (post : Option WapPost) (room : ℕ) : Option Bytes :=
  let head := (if post.isSome then lit "POST" else lit "GET") ++ lit " " ++ path ++
    lit " HTTP/1.0" ++ crlf ++
    (lit "Host: " ++ (if host = [] then lit "127.0.0.1" else host) ++ crlf) ++
    (lit "User-Agent: " ++ fetchUserAgent post ++ crlf) ++
    (lit "Accept: text/vnd.wap.wml, image/vnd.wap.wbmp" ++ crlf) ++
    (lit "X-Forwarded-For: " ++ clientIp ++ crlf) ++ postHeaders post ++
    (lit "Connection: close" ++ crlf ++ crlf)
  if head.length < room then some head else none

/-- `sizeof(req)` in `fetch_page`. -/
def requestSize : ℕ := 2048

/-- The first request `handle_request` makes for a URI or a form, `proxyLen` bytes of its buffer being
a PROXY header already. Any other follows a redirect of the site. -/
def firstRequest (uri : Bytes) (post : Option WapPost) (address : Bytes) (proxyLen : ℕ) :
    Option Bytes :=
  fetchHead (requestHost uri) (fetchPath (requestPath uri)) (inetNtop4 address) post
    (requestSize - proxyLen)

end BoatRudder.WapGateway
