import FusionStore.Native.HttpServer

/-!
# Starting the HTTP server

`main` of `fs-serve`: it opens the engine, reads the tokens of the three roles from the
environment or from files, and refuses to listen on an address that is not a loopback one
unless a token is set.
-/

namespace FusionStore

/-- What the process finds: `std::env::var` as far as it is `Ok`, and `read_to_string`. -/
structure Environment where
  var : String → Option String
  readToString : String → Except String String

/-- `char::is_whitespace`, the `White_Space` property. -/
def isWhiteSpace (c : Char) : Bool :=
  let n := c.toNat
  (9 ≤ n && n ≤ 13) || n = 0x20 || n = 0x85 || n = 0xA0 || n = 0x1680 ||
    (0x2000 ≤ n && n ≤ 0x200A) || n = 0x2028 || n = 0x2029 || n = 0x202F || n = 0x205F ||
    n = 0x3000

/-- `str::trim`. -/
def trim (s : String) : String :=
  .ofList (((s.toList.dropWhile isWhiteSpace).reverse.dropWhile isWhiteSpace).reverse)

namespace AuthConfig

/-- `empty`. -/
def empty : AuthConfig := ⟨[]⟩

/-- `add`: the role of a token that is registered already is replaced. -/
def add (auth : AuthConfig) (token : String) (role : AuthRole) : AuthConfig :=
  ⟨(token, role) :: auth.tokens.filter fun e => e.1 ≠ token⟩

/-- `is_empty`. -/
def isEmpty (auth : AuthConfig) : Bool := auth.tokens.isEmpty

end AuthConfig

/-- The order in which the map of the tokens enumerates them. -/
structure TokenOrder where
  run : List (String × AuthRole) → List (String × AuthRole)
  perm : ∀ tokens, (run tokens).Perm tokens

/-- The order of registration, latest first. -/
def TokenOrder.id : TokenOrder := ⟨fun tokens => tokens, fun _ => .rfl⟩

/-- `BindAuthPolicyError`. -/
structure BindAuthPolicyError where
  bind : String

/-- Its text. -/
def BindAuthPolicyError.toText (e : BindAuthPolicyError) : String :=
  s!"NON-LOOPBACK bind ({e.bind}) WITHOUT FS_AUTH_TOKEN — refusing to start. " ++
    "Set FS_AUTH_TOKEN(_FILE) or bind 127.0.0.1."

end FusionStore
