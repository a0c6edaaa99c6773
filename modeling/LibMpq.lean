import LibMpq.Base.Effect
import LibMpq.Base.Bits
import LibMpq.Base.Bytes
import LibMpq.Types
import LibMpq.Compression
import LibMpq.CompressionRoundTrip
import LibMpq.CryptTable
import LibMpq.Crypto
import LibMpq.Base.Chunked
import LibMpq.Base.File
import LibMpq.Checksum
import LibMpq.Base.Wire
import LibMpq.Tables
import LibMpq.Attributes
import LibMpq.Wave
import LibMpq.Base.Disk
import LibMpq.Writer
import LibMpq.Rsa
import LibMpq.WriterArchive
import LibMpq.Base.Probing
import LibMpq.WriterFrame
import LibMpq.WriterAccounting
import LibMpq.WriterHealthy
import LibMpq.WriterPublish
import LibMpq.Reader
import LibMpq.CompressionOutput
import LibMpq.Content
import LibMpq.Stream
import LibMpq.StreamView
import LibMpq.Base.Segments
import LibMpq.MemberImage
import LibMpq.MemberKey
import LibMpq.WriterImage
import LibMpq.WriterContents
import LibMpq.WriterClose
import LibMpq.Layout
import LibMpq.ReaderOpen
import LibMpq.WriterChunking
import LibMpq.Lookup
import LibMpq.WriterPlacement
import LibMpq.WriterIndex
import LibMpq.ReaderNames
import LibMpq.Base.Keystream
import LibMpq.Mpqe
import LibMpq.Verify
import LibMpq.ReaderFrame
import LibMpq.ReaderHealthy
import LibMpq.Base.Trailing
import LibMpq.Integrity
import LibMpq.ReaderHost
import LibMpq.ReaderImage
import LibMpq.ReaderAttributes
import LibMpq.ReaderClosed
import LibMpq.RoundTrip
import LibMpq.WriterServing
import LibMpq.Sparse
import LibMpq.Query
import LibMpq.Signature
import LibMpq.ReaderCalls
import LibMpq.ReaderTables
import LibMpq.Base.Bitstream
import LibMpq.Pkware
import LibMpq.PkwareTables
import LibMpq.PkwareStream
import LibMpq.PkwareDecode
import LibMpq.PkwareSymbols
import LibMpq.PkwareWindow
import LibMpq.PkwareExpand
import LibMpq.PkwareDecompress
import LibMpq.PkwareEncode
import LibMpq.PkwareExact
import LibMpq.Base.Checked
import LibMpq.AttributesBounds
import LibMpq.WaveProbe
import LibMpq.Base.Delta
import LibMpq.Base.Fields
import LibMpq.Listfile
import LibMpq.PatchApply
import LibMpq.PatchEncode
import LibMpq.PatchPayload
import LibMpq.Base.BitSerial
import LibMpq.Base.Montgomery
import LibMpq.Base.Radix
import LibMpq.RsaLimbs
import LibMpq.RsaWords
import LibMpq.UpdateRuns
import LibMpq.Cipher
import LibMpq.Base.Fips180
import LibMpq.Base.Rfc1321
import LibMpq.DigestStandards
import LibMpq.KeyRecovery
import LibMpq.NameHash
import LibMpq.SignedDigest
import LibMpq.WaveLockstep
import LibMpq.ReaderRanges
import LibMpq.WaveBounds
import LibMpq.Base.Ring
import LibMpq.Base.Sibling
import LibMpq.Base.Unseen
import LibMpq.HuffmanWeights
import LibMpq.Huffman
import LibMpq.HuffmanList
import LibMpq.HuffmanUpdate
import LibMpq.HuffmanLiteral
import LibMpq.HuffmanBuild
import LibMpq.HuffmanInvariant
import LibMpq.HuffmanUnseen
import LibMpq.HuffmanCodec
import LibMpq.HuffmanStream
import LibMpq.HuffmanPath
import LibMpq.HuffmanWalk
import LibMpq.HuffmanCache
import LibMpq.HuffmanRounds
import LibMpq.HuffmanEncode
import LibMpq.HuffmanLockstep
import LibMpq.HuffmanRuns
import LibMpq.HuffmanCounters
import LibMpq.HuffmanRoundTrip
import LibMpq.WriterJournal
import LibMpq.ReaderJournal
import LibMpq.StreamWhole
import LibMpq.Reopening
import LibMpq.EmptyMember
import LibMpq.WriterOrder
import LibMpq.WriterClosing
