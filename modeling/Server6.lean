import Server6.SymCipher.Runtime
import Server6.Foundations.Runs
import Server6.SymCipher.CryptHelper
import Server6.SymCipher.BounceCastle
import Server6.Foundations.SwapSchedule
import Server6.Foundations.Blocks
import Server6.SymCipher.ZenMatrix
import Server6.SymCipher.ZenMatrixSchedule
import Server6.SymCipher.ZenMatrixRoundTrip
import Server6.SymCipher.StaticCiphers
import Server6.SymCipher.Crypt
import Server6.SymCipher.CryptHistory
import Server6.CServer.HandleClient
import Server6.CServer.AcceptLoop
import Server6.Java.Echo
import Server6.Net.Listener6
import Server6.SymCipher.BounceCastleHistory
import Server6.CServer.Client6
import Server6.EnDeCoding.Base32
import Server6.Foundations.Bits
import Server6.EnDeCoding.Base32Encode
import Server6.EnDeCoding.Base32Decode
import Server6.EnDeCoding.Base32RoundTrip
import Server6.EnDeCoding.Base16
import Server6.EnDeCoding.Validators
import Server6.Foundations.Utf8
import Server6.SymCipher.Base64
import Server6.SymCipher.StringCiphers
import Server6.SymCipher.DerivedKeys
import Server6.SymCipher.WeakKeys
import Server6.SymCipher.BounceCastleStates
import Server6.SymCipher.SameKeyCheck
import Server6.SymCipher.ZenMatrixBlocks
import Server6.Foundations.Search
import Server6.Framework.Extensions
import Server6.EnDeCoding.DeEnCoder
import Server6.EnDeCoding.PaddedBytes
import Server6.Foundations.Replace
import Server6.EnDeCoding.Strings
import Server6.EnDeCoding.TrimText
import Server6.EnDeCoding.Base32Range
import Server6.EnDeCoding.Ascii
import Server6.EnDeCoding.HexCodecs
import Server6.EnDeCoding.UuLines
import Server6.EnDeCoding.Uue
import Server6.EnDeCoding.UueValid
import Server6.Foundations.Distinct
import Server6.EnDeCoding.Base32Writes
import Server6.Net.TcpClientWebRequest
import Server6.Net.NetworkAddresses
import Server6.Foundations.Termination
import Server6.CServer.PingEcho
import Server6.CServer.Resources
import Server6.CServer.Arguments
import Server6.Java.Connection
import Server6.Java.ConnectionEnd
import Server6.Java.EchoSystem
import Server6.Java.EchoCompletion
import Server6.Net.ListenerReplies
import Server6.Java.EchoInputStream
import Server6.Framework.LibPaths
import Server6.SymCipher.ZenMatrixProbe
import Server6.SymCipher.CryptIsolation
import Server6.Foundations.Memory
import Server6.Foundations.Chaining
import Server6.Foundations.Scattered
import Server6.KernelCrypto.Cipher
import Server6.KernelCrypto.Words
import Server6.KernelCrypto.Tea
import Server6.KernelCrypto.Sm4
import Server6.KernelCrypto.Cbc
import Server6.KernelCrypto.Lskcipher
import Server6.KernelCrypto.Keywrap
import Server6.KernelCrypto.Mac
