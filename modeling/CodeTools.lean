import CodeTools.Lib.Machine
import CodeTools.HashMap.Insert
import CodeTools.HashMap.Delete
import CodeTools.HashMap.Representation
import CodeTools.HashMap.Refinement
import CodeTools.HashMap.Newest
import CodeTools.HashMap.Listing
import CodeTools.HashMap.Access
import CodeTools.HashMap.FailedInsert
import CodeTools.Lib.Lockstep
import CodeTools.MFile.Model
import CodeTools.MFile.Blocks
import CodeTools.MFile.Reading
import CodeTools.MFile.Unread
import CodeTools.MFile.Readers
import CodeTools.MFile.Content
import CodeTools.MFile.Fifo
import CodeTools.MFile.Calls
import CodeTools.MFile.Seeking
import CodeTools.MFile.Copy
import CodeTools.MFile.Atomic
import CodeTools.MFile.Lines
import CodeTools.MFile.Source
import CodeTools.MFile.Pieces
import CodeTools.MFile.LongLines
import CodeTools.MFile.Rewind
import CodeTools.MFile.Bytewise
import CodeTools.MFile.Fronts
import CodeTools.MFile.EmptyHead
import CodeTools.Stralloc.Growth
import CodeTools.Stralloc.Contract
import CodeTools.Lib.CString
import CodeTools.IniParser.Dictionary
import CodeTools.IniParser.Line
import CodeTools.IniParser.Load
import CodeTools.IniParser.Cuts
import CodeTools.IniParser.Verdict
import CodeTools.IniParser.Agreement
import CodeTools.Lib.Syscall
import CodeTools.Lib.Relay
import CodeTools.ServerEpoll.Child
import CodeTools.ServerEpoll.Transfer
import CodeTools.Ctproxy.Ctchild
import CodeTools.CtapiMysql.Query
import CodeTools.Lib.Descriptor
import CodeTools.ServerEpoll.Server
import CodeTools.ServerEpoll.Slots
import CodeTools.Lib.Text
import CodeTools.Utf8str.Model
import CodeTools.Utf8str.Normalise
import CodeTools.Utf8str.Units
import CodeTools.Utf8str.Reparse
import CodeTools.Utf8str.Untrusted
import CodeTools.Lib.Strtol
import CodeTools.IniParser.Strings
import CodeTools.IniParser.Conf
import CodeTools.IniParser.NameBuffer
import CodeTools.Lib.Crc
import CodeTools.Cthash.Crc32
import CodeTools.Lib.EndAround
import CodeTools.Cthash.Checksum
import CodeTools.Lib.Snprintf
import CodeTools.Lib.Hex
import CodeTools.Ctcrypt.Digest
import CodeTools.CtapiCurl.Receive
import CodeTools.CtapiCurl.Post
import CodeTools.Ctproxy.Writing
import CodeTools.Ctproxy.ReadLine
import CodeTools.CtapiMc.Memcached
import CodeTools.ServerEpoll.Cuttings
import CodeTools.ServerEpoll.Ownership
import CodeTools.ServerEpoll.Stranding
import CodeTools.ServerEpoll.Reaping
import CodeTools.Ctproxy.Ctserver
import CodeTools.MFile.Release
import CodeTools.Lib.Lifetime
import CodeTools.CtapiMysql.Lifecycle
import CodeTools.Ctproxy.BackServer
import CodeTools.ServerEpoll.FdTimeout
import CodeTools.ServerEpoll.FdMove
import CodeTools.IniParser.Getnstr
import CodeTools.Lib.Region
import CodeTools.Stralloc.Addresses
import CodeTools.Base64.ClearGarbage
import CodeTools.Lib.Blocks
import CodeTools.Base64.Encode
import CodeTools.Base64.Decode
import CodeTools.Base64.Stream
import CodeTools.Base64.RoundTrip
import CodeTools.Lib.Keyed
import CodeTools.IniParser.Slots
import CodeTools.IniParser.Arrays
import CodeTools.IniParser.Dump
import CodeTools.IniParser.Reload
import CodeTools.IniParser.Saved
import CodeTools.IniParser.Edited
import CodeTools.HashMap.Release
import CodeTools.Lib.Ring
import CodeTools.MFile.Queue
import CodeTools.MFile.QueueRuns
import CodeTools.MFile.WriteFile
import CodeTools.Lib.Horner
import CodeTools.Cthash.Strings
import CodeTools.Lib.Settings
import CodeTools.CtapiCurl.Session
import CodeTools.EpollEchoman.Server
import CodeTools.Lib.Slots
import CodeTools.Ctproxy.Slots
import CodeTools.IniParser.LoadConf
import CodeTools.IniParser.GetConfigFile
import CodeTools.Utf8str.Trim
