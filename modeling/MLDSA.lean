import MLDSA.Handle
import MLDSA.Hash.Keccak
import MLDSA.Journal
import MLDSA.Proofs.Ring.Negacyclic
import MLDSA.Proofs.Ring.Transform
import MLDSA.Proofs.Ring.Product
import MLDSA.Proofs.Ring.Quotient
import MLDSA.Proofs.Ring.Rounding
import MLDSA.Proofs.Ring.HintVec
import MLDSA.Proofs.Bytes.Bits
import MLDSA.Proofs.Codec.Poly
import MLDSA.Proofs.Codec.Keys
import MLDSA.Proofs.Codec.Hints
import MLDSA.Proofs.Codec.Signature
import MLDSA.Proofs.Sample
import MLDSA.Proofs.KeyPair
import MLDSA.Proofs.Verification
import MLDSA.Proofs.Commitment
import MLDSA.Proofs.Signing
import MLDSA.Proofs.Completeness
import MLDSA.Proofs.Binding
import MLDSA.Proofs.Hints
import MLDSA.Proofs.EntryPoints
import MLDSA.Proofs.Release
import MLDSA.Proofs.Response
import MLDSA.Proofs.Stream
import MLDSA.Proofs.Challenge
import MLDSA.Proofs.Attempt
import MLDSA.Proofs.Masks
import MLDSA.Proofs.Exact.Word
import MLDSA.Proofs.Exact.Run
import MLDSA.Proofs.Exact.Ring
import MLDSA.Proofs.Exact.Codec
import MLDSA.Proofs.Exact.Signature
import MLDSA.Proofs.Exact.Sample
import MLDSA.Proofs.Exact.Verification
import MLDSA.Proofs.Exact.Signing
import MLDSA.Proofs.Exact.Norm
import MLDSA.Proofs.Exact.Domain
import MLDSA.Proofs.Exact.Transform
import MLDSA.Proofs.Bytes.Accumulator
import MLDSA.Proofs.Codec.Dense
import MLDSA.Proofs.Rejection
import MLDSA.Proofs.Exact.Rejection
import MLDSA.Proofs.Uniformity
