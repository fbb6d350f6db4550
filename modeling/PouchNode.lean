import PouchNode.Block
import PouchNode.Nonce
import PouchNode.DownlinkReassembly
import PouchNode.Saead
import PouchNode.Lib.Machine
import PouchNode.Lib.Heap
import PouchNode.BufMem
import PouchNode.Lib.PrefixFree
import PouchNode.SeqnumGuard
import PouchNode.Entry
import PouchNode.EntryFifo
import PouchNode.Lib.Chunks
import PouchNode.Stream
import PouchNode.StreamIds
import PouchNode.StreamBlocks
import PouchNode.StreamSegments
import PouchNode.Uplink
import PouchNode.UplinkFill
import PouchNode.UplinkPull
import PouchNode.UplinkSaead
import PouchNode.WritersMem
import PouchNode.UplinkMem
import PouchNode.UplinkOwners
import PouchNode.FollowUp
import PouchNode.SaeadKeys
import PouchNode.DownlinkFifo
import PouchNode.Events
import PouchNode.SessionEvents
import PouchNode.Packetizer
import PouchNode.ServerCert
import PouchNode.UplinkCharacteristic
import PouchNode.DownlinkQueue
import PouchNode.DownlinkSession
import PouchNode.DownlinkMem
import PouchNode.DownlinkOwners
import PouchNode.DownlinkEntry
import PouchNode.DownlinkParse
import PouchNode.DownlinkRoundTrip
import PouchNode.Lib.Aead
import PouchNode.SaeadChain
import PouchNode.SaeadReceive
import PouchNode.UplinkStart
import PouchNode.UplinkWake
import PouchNode.UplinkClose
import PouchNode.StreamValidity
import PouchNode.Dispatch
import PouchNode.StartErrors
import PouchNode.CloseRetry
import PouchNode.EmptyBlocks
import PouchNode.StreamBounds
import PouchNode.PathLength
import PouchNode.DownlinkAlloc
import PouchNode.Lib.Cbor
import PouchNode.Header
import PouchNode.Ota
import PouchNode.OtaStream
import PouchNode.CertServer
import PouchNode.PacketizerRoundTrip
import PouchNode.DispatchMatch
import PouchNode.OtaBounds
import PouchNode.Lib.Loop
import PouchNode.Zcbor
import PouchNode.ZcborMap
import PouchNode.Manifest
import PouchNode.MapKeys
import PouchNode.MapComplete
import PouchNode.MapOrder
import PouchNode.ComponentOrder
import PouchNode.ManifestOrder
import PouchNode.Settings
import PouchNode.MapBounds
import PouchNode.CborBounds
import PouchNode.ManifestDecoded
import PouchNode.Lib.Base64
import PouchNode.KeyInfo
import PouchNode.DecryptWake
import PouchNode.SettingsHandlers
import PouchNode.SettingsVersion
import PouchNode.StatusUplink
import PouchNode.Lib.Fragments
import PouchNode.Characteristic
import PouchNode.DeviceCert
import PouchNode.ServerSerial
import PouchNode.Provisioning
import PouchNode.UplinkPackets
import PouchNode.DownlinkCharacteristic
import PouchNode.DownlinkPackets
import PouchNode.CryptoNone
import PouchNode.WritersRun
import PouchNode.WrittenBlocks
import PouchNode.EntriesEndToEnd
import PouchNode.FirmwareUpdate
import PouchNode.StreamHistory
import PouchNode.WrittenStreams
import PouchNode.StreamsEndToEnd
import PouchNode.CryptoSaead
import PouchNode.SaeadEndToEnd
