import Keylight.Json
import Keylight.JsonText
import Keylight.Lease
import Keylight.Retry
import Keylight.Sections
import Keylight.Verifier
import Keylight.World
import Keylight.Client
import Keylight.Operations
import Keylight.Replies
import Keylight.Effects
import Keylight.Settle
import Keylight.Outcomes
import Keylight.Gate
import Keylight.Blob
import Keylight.Revocation
import Keylight.TwoValidations
import Keylight.OfflineLaunch
import Keylight.Writes
import Keylight.StoreMirror
import Keylight.Boundary
import Keylight.Persistence
import Keylight.TrialReopen
import Keylight.Events
import Keylight.Delivery
import Keylight.AutoValidation
import Keylight.Teardown
import Keylight.TrialClock
import Keylight.SignedConfig
import Keylight.Sha256
import Keylight.ChaCha20Poly1305
import Keylight.Words
import Keylight.Limbs
import Keylight.Reduction
import Keylight.Authenticator
import Keylight.EncryptedStore
import Keylight.Payloads
import Keylight.Entitlements
import Keylight.Launch
import Keylight.Unlicensed
import Keylight.Interference
import Keylight.StoreOrder
import Keylight.InFlight
import Keylight.OfflineBound
import Keylight.Release
import Keylight.Activation
import Keylight.Register
import Keylight.CrashPoints
import Keylight.Migration
import Keylight.JsonComplete
import Keylight.FreshClient
import Keylight.SharedStore
import Keylight.Failures
import Keylight.Debounce
import Keylight.Beacons
import Keylight.JsonNesting
import Keylight.Utf8
import Keylight.JsonUnicode
import Keylight.ConfigTyping
import Keylight.JsonNumbers
import Keylight.TimeArithmetic
import Keylight.SaveOutcomes
import Keylight.Attempts
import Keylight.Base64
import Keylight.DeviceInfo
import Keylight.Routine
import Keylight.Turns
import Keylight.Courses
import Keylight.AnchorMirror
import Keylight.Renewals
import Keylight.Upgrade
import Keylight.Ghost
import Keylight.InstanceId
import Keylight.BlockHash
import Keylight.Sha256Digest
import Keylight.Checked
import Keylight.Radix
import Keylight.Primality
import Keylight.Edwards
import Keylight.FieldElements
import Keylight.FieldPacking
import Keylight.Curve25519
import Keylight.FieldPowers
import Keylight.CurvePoints
import Keylight.PointEncoding
import Keylight.ScalarReduction
import Keylight.GroupOrder
import Keylight.Sha512
import Keylight.Ed25519
import Keylight.Signatures
import Keylight.Trust
