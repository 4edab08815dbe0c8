import Virthttp.Backtrack
import Virthttp.AsyncFresh
import Virthttp.Program
import Virthttp.JsonRes
import Virthttp.Depends
import Virthttp.UrlRoundTrip
import Virthttp.PatchBodies
import Virthttp.TargetedRequests
import Virthttp.Reporting
import Virthttp.Authentication
import Virthttp.Delivery
import Virthttp.OtherFlatmaps
import Virthttp.AsyncExpiry
import Virthttp.AsyncCapacity
import Virthttp.FlagDecoders
import Virthttp.ActionTruth
import Virthttp.Wrappers
import Virthttp.PowerFlags
import Virthttp.MemberOrder
import Virthttp.QueryKeys
import Virthttp.SearchFlags
import Virthttp.CsvFields
import Virthttp.AbsoluteUrl
import Virthttp.UrlHistory
import Virthttp.UrlAgreement
import Virthttp.UrlPort
import Virthttp.AcceptEncoding
import Virthttp.Libdeflate
import Virthttp.Forwarding
import Virthttp.ActionIntegers
import Virthttp.Serializers
import Virthttp.Listings
import Virthttp.CpuMaps
import Virthttp.Deleters
import Virthttp.SplitFailures
import Virthttp.WrappedArgs
import Virthttp.Rounding
import Virthttp.TypedParameters
import Virthttp.Numerals
import Virthttp.IdSpellings
import Virthttp.ServerSessions
import Virthttp.ServerEffects
import Virthttp.PlainRequests
import Virthttp.ResultAccounts
import Virthttp.ErrorTexts
import Virthttp.Config
import Virthttp.ServerIsolation
import Virthttp.ServerProgress
import Virthttp.AsyncAgreement
import Virthttp.Relational
import Virthttp.ListingAgreement
