import KxcoPostQuantum.Conformance.Acvp
import KxcoPostQuantum.Conformance.Proofs.Agreement
import KxcoPostQuantum.Conformance.Proofs.Children
import KxcoPostQuantum.Conformance.Protocol
import KxcoPostQuantum.Conformance.Responders
import KxcoPostQuantum.Conformance.RunAcvp
import KxcoPostQuantum.Fips.Drbg
import KxcoPostQuantum.Fips.Entropy
import KxcoPostQuantum.Fips.Index
import KxcoPostQuantum.Fips.Integrity
import KxcoPostQuantum.Fips.Module
import KxcoPostQuantum.Fips.Proofs.Atomicity
import KxcoPostQuantum.Fips.Proofs.Concat
import KxcoPostQuantum.Fips.Proofs.DrbgOps
import KxcoPostQuantum.Fips.Proofs.DrbgRefinement
import KxcoPostQuantum.Fips.Proofs.Entropy
import KxcoPostQuantum.Fips.Proofs.Failures
import KxcoPostQuantum.Fips.Proofs.Integrity
import KxcoPostQuantum.Fips.Proofs.Manifest
import KxcoPostQuantum.Fips.Proofs.Primitives
import KxcoPostQuantum.Fips.Proofs.Reseeding
import KxcoPostQuantum.Fips.Proofs.StateMachine
import KxcoPostQuantum.Fips.Proofs.Superseded
import KxcoPostQuantum.Fips.Proofs.Zeroisation
import KxcoPostQuantum.Fips.World
import KxcoPostQuantum.Fuzz.Check
import KxcoPostQuantum.Fuzz.Proofs.ParserLaw
import KxcoPostQuantum.Interop.Peer
import KxcoPostQuantum.Interop.Proofs.Protocol
import KxcoPostQuantum.Js.Files
import KxcoPostQuantum.Js.Hex
import KxcoPostQuantum.Js.HexCodec
import KxcoPostQuantum.Js.Int32
import KxcoPostQuantum.Js.Json
import KxcoPostQuantum.Js.Members
import KxcoPostQuantum.Js.Number
import KxcoPostQuantum.Js.Text
import KxcoPostQuantum.Js.TypedArray
import KxcoPostQuantum.Js.Value
import KxcoPostQuantum.Jws.Codec
import KxcoPostQuantum.Jws.Index
import KxcoPostQuantum.Jws.Proofs.Advertised
import KxcoPostQuantum.Jws.Proofs.Header
import KxcoPostQuantum.Jws.Proofs.RoundTrip
import KxcoPostQuantum.Jws.Proofs.Segments
import KxcoPostQuantum.Jws.Proofs.Text
import KxcoPostQuantum.Jws.Proofs.Verify
import KxcoPostQuantum.Kid
import KxcoPostQuantum.Lib.Base64
import KxcoPostQuantum.Lib.Ber
import KxcoPostQuantum.Lib.Buffer
import KxcoPostQuantum.Lib.ConstantTime
import KxcoPostQuantum.Lib.Der
import KxcoPostQuantum.Lib.Digits
import KxcoPostQuantum.Lib.Ecma
import KxcoPostQuantum.Lib.Ecma.Declarations
import KxcoPostQuantum.Lib.Ecma.Number
import KxcoPostQuantum.Lib.Effect
import KxcoPostQuantum.Lib.FileTree
import KxcoPostQuantum.Lib.Heap
import KxcoPostQuantum.Lib.HmacDrbg
import KxcoPostQuantum.Lib.Json
import KxcoPostQuantum.Lib.JsonIndent
import KxcoPostQuantum.Lib.Lines
import KxcoPostQuantum.Lib.Loop
import KxcoPostQuantum.Lib.Matches
import KxcoPostQuantum.Lib.Negacyclic
import KxcoPostQuantum.Lib.Ntt
import KxcoPostQuantum.Lib.Posix
import KxcoPostQuantum.Lib.Sponge
import KxcoPostQuantum.Lib.Throws
import KxcoPostQuantum.Lib.Utf8
import KxcoPostQuantum.Lib.Walk
import KxcoPostQuantum.Lib.Worklist
import KxcoPostQuantum.Scripts.Cbom
import KxcoPostQuantum.Scripts.Proofs.Cbom
import KxcoPostQuantum.Scripts.Proofs.Comments
import KxcoPostQuantum.Scripts.Proofs.Moves
import KxcoPostQuantum.Scripts.Proofs.Vendor
import KxcoPostQuantum.Scripts.Vendor
import KxcoPostQuantum.Seed.Derive
import KxcoPostQuantum.Seed.Jwk
import KxcoPostQuantum.Seed.Params
import KxcoPostQuantum.Seed.Pkcs8
import KxcoPostQuantum.Seed.Proofs.Forms
import KxcoPostQuantum.Seed.Proofs.Jwk
import KxcoPostQuantum.Seed.Proofs.KeyMaterial
import KxcoPostQuantum.Seed.Proofs.Labels
import KxcoPostQuantum.Seed.Proofs.Nesting
import KxcoPostQuantum.Signature.Modules
import KxcoPostQuantum.Signature.Native
import KxcoPostQuantum.Signature.Proofs.Backends
import KxcoPostQuantum.Signature.Proofs.Contexts
import KxcoPostQuantum.Signature.Proofs.Encoders
import KxcoPostQuantum.Signature.Proofs.Hex
import KxcoPostQuantum.Signature.Proofs.Spelling
import KxcoPostQuantum.Vendor.Crystals
import KxcoPostQuantum.Vendor.Fft
import KxcoPostQuantum.Vendor.MlDsa
import KxcoPostQuantum.Vendor.MlKem
import KxcoPostQuantum.Vendor.Proofs.BitsCoder
import KxcoPostQuantum.Vendor.Proofs.Coders
import KxcoPostQuantum.Vendor.Proofs.DsaCoders
import KxcoPostQuantum.Vendor.Proofs.DsaHints
import KxcoPostQuantum.Vendor.Proofs.DsaKeys
import KxcoPostQuantum.Vendor.Proofs.DsaPoly
import KxcoPostQuantum.Vendor.Proofs.DsaRounding
import KxcoPostQuantum.Vendor.Proofs.DsaSampling
import KxcoPostQuantum.Vendor.Proofs.DsaScheme
import KxcoPostQuantum.Vendor.Proofs.DsaSign
import KxcoPostQuantum.Vendor.Proofs.DsaSmall
import KxcoPostQuantum.Vendor.Proofs.Fft
import KxcoPostQuantum.Vendor.Proofs.Keccak
import KxcoPostQuantum.Vendor.Proofs.KemCoders
import KxcoPostQuantum.Vendor.Proofs.KemPke
import KxcoPostQuantum.Vendor.Proofs.KemPoly
import KxcoPostQuantum.Vendor.Proofs.KemPrepared
import KxcoPostQuantum.Vendor.Proofs.KemSampling
import KxcoPostQuantum.Vendor.Proofs.KemScheme
import KxcoPostQuantum.Vendor.Proofs.Ntt
import KxcoPostQuantum.Vendor.Proofs.Sampling
import KxcoPostQuantum.Vendor.Proofs.Sha3
import KxcoPostQuantum.Vendor.Sha3
import KxcoPostQuantum.Vendor.Utils
import KxcoPostQuantum.Webhook.Index
import KxcoPostQuantum.Webhook.Proofs.Binding
import KxcoPostQuantum.Webhook.Proofs.Grammar
import KxcoPostQuantum.Webhook.Proofs.Isolation
import KxcoPostQuantum.Webhook.Proofs.RoundTrip
import KxcoPostQuantum.Webhook.Proofs.Separation
import KxcoPostQuantum.Webhook.Proofs.Timestamp
