import AgeCrypt.Decryption
import AgeCrypt.Encryption
import AgeCrypt.Language
import AgeCrypt.Passphrase
import AgeCrypt.X25519
import AgeCrypt.Proofs.PayloadIntegrity
import AgeCrypt.Proofs.RoundTrip
import AgeCrypt.Proofs.Unlocking
import AgeCrypt.Proofs.HeaderCodec
import AgeCrypt.Proofs.PayloadEnding
import AgeCrypt.Proofs.Calls
import AgeCrypt.Proofs.PayloadLayout
import AgeCrypt.Proofs.NonceUse
import AgeCrypt.Proofs.ReadingOut
import AgeCrypt.Proofs.ArmorGrammar
import AgeCrypt.Proofs.Decrypting
import AgeCrypt.Proofs.ArmorTransparency
import AgeCrypt.Proofs.Rereading
import AgeCrypt.Proofs.ShortWrites
import AgeCrypt.Proofs.Trials
import AgeCrypt.Proofs.DecryptionPaths
import AgeCrypt.Proofs.EncryptionPaths
import AgeCrypt.Proofs.ArmorResuming
import AgeCrypt.Proofs.LabelAgreement
import AgeCrypt.Proofs.DeliveryIndependence
import AgeCrypt.Proofs.Stalling
import AgeCrypt.Proofs.Releasing
import AgeCrypt.Proofs.RefusedWrites
import AgeCrypt.Proofs.HeaderFaults
import AgeCrypt.Proofs.WorkFactors
import AgeCrypt.Proofs.ArmorRoundTrip
import AgeCrypt.Proofs.LowOrder
import AgeCrypt.Proofs.KeyTexts
import AgeCrypt.Proofs.StanzaSelection
import AgeCrypt.Proofs.RandomnessUse
import AgeCrypt.Proofs.FailedWrites
import AgeCrypt.Proofs.LineParsers
import AgeCrypt.Proofs.Base64Groups
import AgeCrypt.Proofs.OneTimeEncryption
