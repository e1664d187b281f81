import Tamga.Lib.Alloc
import Tamga.Lib.Decimal
import Tamga.Lib.Utf8
import Tamga.Lib.MergeSort
import Tamga.Lib.Base64
import Tamga.Lib.Binary64
import Tamga.Mem
import Tamga.Error
import Tamga.Crypto
import Tamga.Util.Buf
import Tamga.Util.Base64
import Tamga.Util.Uuid
import Tamga.Json.Value
import Tamga.Libc
import Tamga.Json.Parse
import Tamga.Json.Grammar
import Tamga.Json.Document
import Tamga.Json.StringToken
import Tamga.Json.NumberToken
import Tamga.Json.Composite
import Tamga.Json.ParseComplete
import Tamga.Json.ParseSound
import Tamga.Json.ParseSpec
import Tamga.Json.Stored
import Tamga.Json.ParseMemory
import Tamga.Json.Write
import Tamga.Json.Text
import Tamga.Json.Canonical
import Tamga.Util.Fingerprint
import Tamga.Json.RoundTrip
import Tamga.Json.CanonicalForm
import Tamga.Json.Unambiguous
import Tamga.Json.Floating
import Tamga.Json.Exact
import Tamga.Json.Respell
import Tamga.Json.Collapse
import Tamga.Json.Locale
import Tamga.Json.Serde
import Tamga.Checkout.Decode
import Tamga.Checkout.Cert
import Tamga.Checkout.Claims
import Tamga.Checkout.KeySet
import Tamga.Checkout.KeyDocument
import Tamga.Checkout.KeyId
import Tamga.Checkout.Verify
import Tamga.Checkout.Payload
import Tamga.Checkout.License
import Tamga.Checkout.Machine
import Tamga.Checkout.Accept
import Tamga.Checkout.Trust
import Tamga.Proof
import Tamga.Proof.Binding
import Tamga.Checkout.Stray
import Tamga.Checkout.Truthful
import Tamga.Checkout.Label
import Tamga.Checkout.Agreement
import Tamga.Lib.Interact
import Tamga.Lib.Stateful
import Tamga.Slot
import Tamga.Api
import Tamga.Lib.Percent
import Tamga.Http.Response
import Tamga.Http.Client
import Tamga.Http.Endpoints
import Tamga.Http.Composed
import Tamga.Http.Url
import Tamga.Http.Send
import Tamga.Http.Routes
import Tamga.Http.Session
import Tamga.Http.LineBreaks
import Tamga.Http.Retry
import Tamga.Http.Exchange
import Tamga.Http.Activation
import Tamga.Http.Adoption
import Tamga.Http.Refusal
import Tamga.Http.Slot
import Tamga.Checkout.Expiry
import Tamga.Checkout.Rewrap
import Tamga.Lib.MerkleDamgard
import Tamga.Crypto.Sha2
import Tamga.Lib.KeyDerivation
import Tamga.Crypto.Hkdf
import Tamga.Lib.GF256
import Tamga.Lib.Rijndael
import Tamga.Crypto.Aes
import Tamga.Crypto.Gcm
import Tamga.Util.Block
import Tamga.Http.Keyset
import Tamga.Http.Lookup
import Tamga.Json.DoubleText
import Tamga.Http.MachineBody
import Tamga.Lib.Keyset
import Tamga.Lib.Octets
import Tamga.Lib.Ber
import Tamga.Crypto.Der
import Tamga.Lib.Checked
import Tamga.Crypto.DerForms
import Tamga.Crypto.Ecdsa
import Tamga.Checkout.Primitives
import Tamga.Json.KeySort
import Tamga.Lib.Limbs
import Tamga.Lib.Ladder
import Tamga.Lib.Montgomery
import Tamga.Lib.Pratt
import Tamga.Lib.BinaryField
import Tamga.Crypto.Ghash
import Tamga.Crypto.Bn
import Tamga.Crypto.P256Mod
import Tamga.Crypto.Fe25519
import Tamga.Crypto.Scalar25519
import Tamga.Lib.Edwards
import Tamga.Crypto.Ge25519
