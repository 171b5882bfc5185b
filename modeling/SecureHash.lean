import SecureHash.Session
import SecureHash.Digest.Text
import SecureHash.Chunking.Stream
import SecureHash.Standard.Message
import SecureHash.Proofs.Runs
import SecureHash.Proofs.WordLogic
import SecureHash.Proofs.Digits
import SecureHash.Proofs.Roots
import SecureHash.Proofs.Cutting
import SecureHash.Proofs.Rotation
import SecureHash.Proofs.Schedule
import SecureHash.Proofs.Compression
import SecureHash.Proofs.Intake
import SecureHash.Proofs.Closing
import SecureHash.Proofs.Message
import SecureHash.Proofs.Chunks
import SecureHash.Proofs.Locality
import SecureHash.Proofs.Steps
import SecureHash.Proofs.Refinement
import SecureHash.Proofs.Ghost
import SecureHash.Proofs.Encoding
import SecureHash.Proofs.Recording
import SecureHash.Proofs.Collision
import SecureHash.Proofs.Stale
import SecureHash.Proofs.Variants
import SecureHash.Proofs.SecondPass
import SecureHash.Proofs.Faultless
import SecureHash.Proofs.Resumption
import SecureHash.Proofs.Compositions
import SecureHash.Proofs.Splits
import SecureHash.Proofs.Strides
import SecureHash.Proofs.Streams
import SecureHash.Proofs.Padding
import SecureHash.Proofs.Inversion
import SecureHash.Proofs.Windows
import SecureHash.Proofs.Enumeration
import SecureHash.Proofs.HexDigits
import SecureHash.Proofs.Parsing
import SecureHash.Proofs.Repetition
import SecureHash.Proofs.Slices
import SecureHash.Proofs.Spelling
import SecureHash.Proofs.Decoding
import SecureHash.Proofs.DigestText
import SecureHash.Proofs.Agreement
import SecureHash.Proofs.Codec
import SecureHash.Proofs.Roles
